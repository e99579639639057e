import Hirn.ResourceResults

/-! Redactions and purges among the other operations on resources. The calls run side by side, every
storage call may fail, and the process may stop between two of them. -/
namespace Hirn.Resources
open Engine Calls Runs List

inductive Request
  | persist (draft : ResourceObjectBuilder) (blob : Option Bytes)
  | supersede (resourceId : ResourceId) (supersession : ResourceSupersession) (blob : Option Bytes)
  | redact (resourceId : ResourceId) (update : ResourceGovernanceUpdate)
  | purge (resourceId : ResourceId) (update : ResourceGovernanceUpdate)
  | reconcile
  | persistDerivedArtifact (artifact : DerivedArtifact)
  | persistDerivedArtifactWithBlob (artifact : DerivedArtifact) (data : Bytes)

def Request.governs : Request → Option (ResourceId × ResourceGovernanceState)
  | .redact resourceId _ => some (resourceId,.redacted)
  | .purge resourceId _ => some (resourceId,.purged)
  | _ => none

def Request.isReconcile : Request → Bool
  | .reconcile => true
  | _ => false

inductive Reply
  | revision (resource : ResourceObject)
  | reconciled (count : ℕ)
  | stored

variable (env : Env)

/-- What a request runs. The call's number identifies its revision. -/
def serve (c : ℕ) : Timestamp × Request → Prog StoreOp Store (Except HirnDbError Reply)
  | (now,.persist draft blob) => (Reply.revision <$> persistResource env (draft.build c now) blob).run
  | (now,.supersede resourceId supersession blob) =>
    (Reply.revision <$> supersedeResource env c now resourceId supersession blob).run
  | (now,.redact resourceId update) => (Reply.revision <$> redactResource env c now resourceId
      update).run
  | (now,.purge resourceId update) => (Reply.revision <$> purgeResource env c now resourceId
      update).run
  | (now,.reconcile) => (Reply.reconciled <$> reconcileResourcePayloadPurges now).run
  | (_,.persistDerivedArtifact artifact) =>
      ((fun _ => Reply.stored) <$> persistDerivedArtifact artifact).run
  | (_,.persistDerivedArtifactWithBlob artifact data) =>
    ((fun _ => Reply.stored) <$> persistDerivedArtifactWithBlob artifact data).run

def EnvelopePayload.purges : EnvelopePayload → Option LogicalResourceId
  | .headTransition .. => none
  | .payloadPurge logicalResourceId _ => some logicalResourceId

def EnvelopeId.successorId : EnvelopeId → ResourceId
  | .resourceHead successorId => successorId
  | .resourcePurge successorId => successorId

namespace Store
variable (s : Store)

/-- The revision has been appended to the lineage, whatever has become of it. -/
def Of (id : ResourceId) (L : LogicalResourceId) : Prop := ∃ x ∈ s.born, x.1 = id ∧ x.2.1 = L
  deriving Decidable

variable (L : LogicalResourceId)

def Governed : Prop :=
  ∃ r ∈ s.resources, r.storageReady = true ∧ r.logicalResourceId = L ∧
  r.governanceState.hidesPayload = true
  deriving Decidable

def PurgePending : Prop :=
  ∃ e ∈ s.envelopes, e.state = .pending ∧ e.payload.purges = some L
  deriving Decidable

def PurgeApplied (id : ResourceId) : Prop :=
  ∃ e ∈ s.envelopes, e.id = .resourcePurge id ∧ e.state = .applied
  deriving Decidable

def blobIds : List ResourceId := s.blobs.map (·.resourceId)
def artifactIds : List ResourceId := s.artifacts.map (·.resourceId)

def HasPayload : Prop := ∃ id ∈ s.blobIds++s.artifactIds, s.Of id L
  deriving Decidable

/-- A revision of a lineage whose payload is not hidden and not about to go. -/
def Open (id : ResourceId) : Prop :=
  ∃ x ∈ s.born, x.1 = id ∧ ¬s.Governed x.2.1 ∧ ¬s.PurgePending x.2.1
  deriving Decidable

/-- Of the rows `rows`, those of a lineage in `ids` are all in `ids`. -/
def Covers (ids rows : List ResourceId) : Prop :=
  ∀ x ∈ s.born, x.1 ∈ ids → ∀ y ∈ s.born, y.2.1 = x.2.1 → y.1 ∈ rows → y.1 ∈ ids
  deriving Decidable

/-- The purge of a revision that hides the payload is done, and nothing is left. -/
def Purged : Prop :=
  ¬s.HasPayload L ∧ ∃ r ∈ s.resources, (r.storageReady = true ∧ r.logicalResourceId = L ∧
    r.governanceState.hidesPayload = true) ∧ s.PurgeApplied r.id
  deriving Decidable

/-- A hidden row becomes visible only in a lineage that is or will be governed. -/
def Announced (row : ResourceObject) : Prop :=
  row.storageReady = true → row.governanceState.hidesPayload = true →
    s.Governed row.logicalResourceId ∨ s.PurgePending row.logicalResourceId
  deriving Decidable

/-- A row that is taken back leaves another of its lineage, its purge not done. -/
def Revocable (id : ResourceId) : Prop :=
  (∀ r ∈ s.resources, r.id = id → r.storageReady = true → ∃ other ∈ s.resources,
    other.id ≠ id ∧ other.storageReady = true ∧ other.logicalResourceId = r.logicalResourceId) ∧
    ¬s.PurgeApplied id
  deriving Decidable

/-- Done or applied envelopes stay so; a purge is given up with nothing to purge. -/
def Advances (row : MutationEnvelopeRecord) : Prop :=
  (∀ e ∈ s.envelopes, e.id = row.id →
    (row.state = .pending → e.state = .pending) ∧ (e.state = .applied → row.state = .applied)) ∧
  (row.state = .failed → ∀ L ∈ row.payload.purges, ¬s.Governed L ∨ ¬s.HasPayload L)
  deriving Decidable

/-- What a storage call that takes effect has to find. -/
def Admits (request : Request) : StoreOp → Prop
  | .appendBlob row => s.Open row.resourceId
  | .appendArtifact row => s.Open row.resourceId
  | .appendResource row => s.Announced row
  | .mergeResource row => s.Announced row
  | .deleteResource id => s.Revocable id
  | .deleteBlobs ids => request.governs.isSome || request.isReconcile → s.Covers ids s.blobIds
  | .deleteArtifacts ids => s.Covers ids s.artifactIds
  | .mergeEnvelope row => s.Advances row
  | _ => True

/-- A request to govern as already governed finds the purge done. -/
def Finished (c : ℕ) (request : Request) : Prop :=
  ∀ g ∈ request.governs, (∀ r ∈ s.resources, r.id ≠ c) → ∀ x ∈ s.born, x.1 = g.1 →
    ∀ h ∈ s.head x.2.1, h.governanceState = g.2 → s.Purged x.2.1
  deriving Decidable

instance (s : Store) (request : Request) (o : StoreOp) : Decidable (s.Admits request o) := by
  cases o <;> unfold Admits <;> infer_instance

end Store

/-- With `whole` no storage call of a reconciliation fails, with `finished` a request to govern again
comes behind the first. -/
def Allowed (whole finished : Bool) (c : ℕ) (call : Timestamp × Request) (s : Store) (o : StoreOp)
    (succeeds : Bool) : Prop :=
  (succeeds = true → s.Admits call.2 o) ∧
  (whole = true → call.2.isReconcile = true → succeeds = true) ∧
    (finished = true → s.Finished c call.2)

instance (whole finished : Bool) (c : ℕ) (call : Timestamp × Request) (s : Store) (o : StoreOp)
    (succeeds : Bool) : Decidable (Allowed whole finished c call s o succeeds) :=
  inferInstanceAs (Decidable (_ ∧ _))

def ResourceObject.birth (r : ResourceObject) :
    ResourceId × LogicalResourceId × ResourceGovernanceState :=
  (r.id,r.logicalResourceId,r.governanceState)

variable {L : LogicalResourceId} {s s' : Store}

namespace Store

def Visible (s : Store) (x : ResourceId × LogicalResourceId × ResourceGovernanceState) : Prop :=
  ∃ r ∈ s.resources, r.storageReady = true ∧ r.birth = x

def Shown (s : Store) (L : LogicalResourceId) : Prop :=
  ∃ r ∈ s.resources, r.storageReady = true ∧ r.logicalResourceId = L

def Unborn (s : Store) (c : ℕ) : Prop := (∀ x ∈ s.born, x.1 ≠ c) ∧ ∀ id ∈ s.blobIds++s.artifactIds,
    id ≠ c

structure Consistent (s : Store) : Prop where
  nodup : (s.resources.map (·.id)).Nodup
  nodupEnvelopes : (s.envelopes.map (·.id)).Nodup
  nodupBorn : (s.born.map (·.1)).Nodup
  born : ∀ r ∈ s.resources, r.birth ∈ s.born
  pending : ∀ L, s.Governed L → s.HasPayload L → s.PurgePending L

variable {x y : ResourceId × LogicalResourceId × ResourceGovernanceState}

theorem consistent_empty : empty.Consistent := by
  refine ⟨nodup_nil,nodup_nil,nodup_nil,?_,?_⟩
  · simp [empty]
  · simp [empty,Governed]

theorem Consistent.birth_eq (hs : s.Consistent) (hx : x ∈ s.born) (hy : y ∈ s.born)
    (hid : x.1 = y.1) : x = y :=
  inj_on_of_nodup_map hs.nodupBorn hx hy hid

theorem Visible.governed (h : s.Visible x) (hhides : x.2.2.hidesPayload) : s.Governed x.2.1 := by
  obtain ⟨r,hr,hready,rfl⟩ := h
  exact ⟨r,hr,hready,rfl,hhides⟩

theorem Visible.shown (h : s.Visible x) : s.Shown x.2.1 := by
  obtain ⟨r,hr,hready,rfl⟩ := h
  exact ⟨r,hr,hready,rfl⟩
end Store

/-- What a storage call of the call `c` may do to the store. -/
structure Guarantee (c : ℕ) (s s' : Store) : Prop where
  born : ∀ x ∈ s.born, x ∈ s'.born
  bornOnly : ∀ x ∈ s'.born, x ∈ s.born ∨ x.1 = c ∧ s.Unborn c
  visible : ∀ x, s.Visible x → x.1 ≠ c ∨ s.PurgeApplied x.1 → s'.Visible x
  shown : ∀ L, s.Shown L → s'.Shown L
  envelopes : ∀ e ∈ s.envelopes, ∃ e' ∈ s'.envelopes, e'.id = e.id
  envelopesOnly : ∀ e' ∈ s'.envelopes,
    (∃ e ∈ s.envelopes, e.id = e'.id ∧ e.payload = e'.payload ∧
    (e'.state = .pending → e.state = .pending) ∧
      (e.state = .applied → e'.state = .applied)) ∨
    e'.id.successorId = c ∧ ∀ e ∈ s.envelopes, e.id ≠ e'.id
  blobs : ∀ id ∈ s'.blobIds, id ∈ s.blobIds ∨ s.Open id
  artifacts : ∀ id ∈ s'.artifactIds, id ∈ s.artifactIds ∨ s.Open id

/-- What the call `c` knows of a storage call that it makes. -/
def Own (c : ℕ) (s : Store) : StoreOp → Prop
  | .appendResource row => row.id = c ∧ s.Unborn c
  | .mergeResource row => row.storageReady = true ∧ row.birth ∈ s.born
  | .deleteResource id => id = c
  | .appendEnvelope row => row.id.successorId = c ∧ ∀ e ∈ s.envelopes, e.id ≠ row.id
  | .mergeEnvelope row => ∃ e ∈ s.envelopes, e.id = row.id ∧ e.payload = row.payload ∧
      (row.state = .applied → e.state = .pending → ∀ L ∈ row.payload.purges, ¬s.HasPayload L)
  | _ => True

variable {c : ℕ}

section
variable {backend : Backend}

theorem Guarantee.refl : Guarantee c s s where
  born _ hx := hx
  bornOnly _ hx := .inl hx
  visible _ hx _ := hx
  shown _ hL := hL
  envelopes e he := ⟨e,he,rfl⟩
  envelopesOnly e he := .inl ⟨e,he,rfl,rfl,id,id⟩
  blobs _ hid := .inl hid
  artifacts _ hid := .inl hid

variable (hs : s.Consistent)
include hs

theorem keeps_appendResource {row : ResourceObject} (hid : row.id = c) (hunborn : s.Unborn c)
    (hannounced : s.Announced row) : (effect backend (.appendResource row) s).Consistent ∧
      Guarantee c s (effect backend (.appendResource row) s) := by
  have hnew : ∀ r ∈ s.resources, r.id ≠ row.id := fun r hr => hid ▸ hunborn.1 r.birth (hs.born r hr)
  have hborn : ∀ x ∈ s.born, x ∈ s.born++[row.birth] := fun x hx => mem_append_left _ hx
  have hpayload : ∀ L, (effect backend (.appendResource row) s).HasPayload L → s.HasPayload L := by
    rintro L ⟨id,hstored,x,hx,rfl,hL⟩
    rcases mem_append.mp hx with hx | hx
    · exact ⟨x.1,hstored,x,hx,rfl,hL⟩
    · rw [mem_singleton.mp hx] at hstored
      exact absurd hid (hunborn.2 _ hstored)
  constructor
  · refine ⟨nodup_append_resource hs.nodup hnew,hs.nodupEnvelopes,?_,?_,?_⟩
    · change ((s.born++[row.birth]).map (·.1)).Nodup
      rw [map_append,nodup_append]
      refine ⟨hs.nodupBorn,by simp,fun k hk l hl => ?_⟩
      obtain ⟨x,hx,rfl⟩ := mem_map.mp hk
      rw [map_singleton,mem_singleton] at hl
      rw [hl]
      exact fun heq => hunborn.1 x hx (heq.trans hid)
    · intro r hr
      rcases mem_append.mp hr with hr | hr
      · exact hborn _ (hs.born r hr)
      · rw [mem_singleton.mp hr]
        exact mem_append_right _ (mem_singleton_self _)
    · rintro L ⟨r,hr,hready,hL,hhides⟩ hrows
      rcases mem_append.mp hr with hr | hr
      · exact hs.pending L ⟨r,hr,hready,hL,hhides⟩ (hpayload L hrows)
      · rw [mem_singleton.mp hr] at hready hL hhides
        rcases hannounced hready hhides with hgoverned | hpending
        · exact hs.pending L (hL ▸ hgoverned) (hpayload L hrows)
        · exact hL ▸ hpending
  · exact {(Guarantee.refl : Guarantee c s s) with
      born := hborn
      bornOnly := by
        intro x hx
        rcases mem_append.mp hx with hx | hx
        · exact .inl hx
        · exact .inr ⟨(mem_singleton.mp hx) ▸ hid,hunborn⟩
      visible := fun x ⟨r,hr,hx⟩ _ => ⟨r,mem_append_left _ hr,hx⟩
      shown := fun L ⟨r,hr,hL⟩ => ⟨r,mem_append_left _ hr,hL⟩}

theorem keeps_mergeResource {row : ResourceObject} (hready : row.storageReady)
    (hborn : row.birth ∈ s.born) (hannounced : s.Announced row) :
    (effect backend (.mergeResource row) s).Consistent ∧
    Guarantee c s (effect backend (.mergeResource row) s) := by
  have hmem : ∀ r, r ∈ (effect backend (.mergeResource row) s).resources ↔
      r = row ∨ r ∈ s.resources ∧ r.id ≠ row.id := fun r => mem_mergeInsert
  -- A row that is replaced is of the same lineage and governed alike.
  have hvisible : ∀ x, s.Visible x → (effect backend (.mergeResource row) s).Visible x := by
    rintro x ⟨r,hr,hr',rfl⟩
    by_cases hid : r.id = row.id
    · exact ⟨row,(hmem row).mpr (.inl rfl),hready,hs.birth_eq hborn (hs.born r hr) hid.symm⟩
    · exact ⟨r,(hmem r).mpr (.inr ⟨hr,hid⟩),hr',rfl⟩
  constructor
  · refine ⟨nodup_mergeInsert hs.nodup,hs.nodupEnvelopes,hs.nodupBorn,?_,?_⟩
    · intro r hr
      rcases (hmem r).mp hr with rfl | ⟨hr,-⟩
      · exact hborn
      · exact hs.born r hr
    · rintro L ⟨r,hr,hr',hL,hhides⟩ hrows
      rcases (hmem r).mp hr with rfl | ⟨hr,-⟩
      · rcases hannounced hready hhides with hgoverned | hpending
        · exact hs.pending L (hL ▸ hgoverned) hrows
        · exact hL ▸ hpending
      · exact hs.pending L ⟨r,hr,hr',hL,hhides⟩ hrows
  · exact {(Guarantee.refl : Guarantee c s s) with
      visible := fun x hx _ => hvisible x hx
      shown := by
        rintro L ⟨r,hr,hr',hL⟩
        exact hL ▸ (hvisible r.birth ⟨r,hr,hr',rfl⟩).shown}

theorem keeps_deleteResource (hrevocable : s.Revocable c) :
    (effect backend (.deleteResource c) s).Consistent ∧
    Guarantee c s (effect backend (.deleteResource c) s) := by
  have hmem : ∀ r, r ∈ (effect backend (.deleteResource c) s).resources ↔ r ∈ s.resources ∧
    r.id ≠ c := by
    intro r
    change r ∈ s.resources.filter _ ↔ _
    rw [mem_filter,decide_eq_true_eq]
  constructor
  · refine ⟨hs.nodup.sublist (filter_sublist.map _),hs.nodupEnvelopes,hs.nodupBorn,?_,?_⟩
    · exact fun r hr => hs.born r ((hmem r).mp hr).1
    · rintro L ⟨r,hr,hgoverned⟩ hrows
      exact hs.pending L ⟨r,((hmem r).mp hr).1,hgoverned⟩ hrows
  · exact {(Guarantee.refl : Guarantee c s s) with
      visible := by
        rintro x ⟨r,hr,hready,rfl⟩ hkept
        have hne : r.id ≠ c := by
          intro hid
          rcases hkept with hne | happlied
          · exact hne hid
          · exact hrevocable.2 (hid ▸ happlied)
        exact ⟨r,(hmem r).mpr ⟨hr,hne⟩,hready,rfl⟩
      shown := by
        rintro L ⟨r,hr,hready,hL⟩
        by_cases hid : r.id = c
        · obtain ⟨other,hother,hne,hready',hL'⟩ := hrevocable.1 r hr hid hready
          exact ⟨other,(hmem other).mpr ⟨hother,hne⟩,hready',hL'.trans hL⟩
        · exact ⟨r,(hmem r).mpr ⟨hr,hid⟩,hready,hL⟩}

theorem keeps_payload (hblobs : ∀ b ∈ blobs, b.resourceId ∈ s.blobIds ∨ s.Open b.resourceId)
    (hartifacts : ∀ a ∈ artifacts, a.resourceId ∈ s.artifactIds ∨ s.Open a.resourceId) :
    Store.Consistent {s with blobs,artifacts} ∧ Guarantee c s {s with blobs,artifacts} := by
  have hblobIds : ∀ id ∈ blobs.map (·.resourceId), id ∈ s.blobIds ∨ s.Open id := by
    intro id hid
    obtain ⟨b,hb,rfl⟩ := mem_map.mp hid
    exact hblobs b hb
  have hartifactIds : ∀ id ∈ artifacts.map (·.resourceId), id ∈ s.artifactIds ∨ s.Open id := by
    intro id hid
    obtain ⟨a,ha,rfl⟩ := mem_map.mp hid
    exact hartifacts a ha
  constructor
  · refine ⟨hs.nodup,hs.nodupEnvelopes,hs.nodupBorn,hs.born,?_⟩
    rintro L hgoverned ⟨id,hid,y,hy,rfl,rfl⟩
    have hold : y.1 ∈ s.blobIds++s.artifactIds ∨ s.Open y.1 := by
      rcases mem_append.mp hid with hid | hid
      · exact (hblobIds _ hid).imp_left (mem_append_left _)
      · exact (hartifactIds _ hid).imp_left (mem_append_right _)
    rcases hold with hold | ⟨x,hx,hxy,hfree,-⟩
    · exact hs.pending y.2.1 hgoverned ⟨y.1,hold,y,hy,rfl,rfl⟩
    · rw [hs.birth_eq hx hy hxy] at hfree
      exact absurd hgoverned hfree
  · exact {(Guarantee.refl : Guarantee c s s) with
      blobs := hblobIds
      artifacts := hartifactIds}

theorem keeps_appendEnvelope (hid : row.id.successorId = c)
    (hnew : ∀ e ∈ s.envelopes, e.id ≠ row.id) : (effect backend (.appendEnvelope row) s).Consistent ∧
      Guarantee c s (effect backend (.appendEnvelope row) s) := by
  constructor
  · refine ⟨hs.nodup,?_,hs.nodupBorn,hs.born,?_⟩
    · change ((s.envelopes++[row]).map (·.id)).Nodup
      rw [map_append,nodup_append]
      refine ⟨hs.nodupEnvelopes,by simp,fun k hk l hl => ?_⟩
      obtain ⟨e,he,rfl⟩ := mem_map.mp hk
      rw [map_singleton,mem_singleton] at hl
      exact hl ▸ hnew e he
    · intro L hgoverned hrows
      obtain ⟨e,he,hpending⟩ := hs.pending L hgoverned hrows
      exact ⟨e,mem_append_left _ he,hpending⟩
  · exact {(Guarantee.refl : Guarantee c s s) with
      envelopes := fun e he => ⟨e,mem_append_left _ he,rfl⟩
      envelopesOnly := by
        intro e he
        rcases mem_append.mp he with he | he
        · exact .inl ⟨e,he,rfl,rfl,id,id⟩
        · rw [mem_singleton.mp he]
          exact .inr ⟨hid,hnew⟩}

theorem keeps_mergeEnvelope (hold : old ∈ s.envelopes) (hid : old.id = row.id)
    (hpayload : old.payload = row.payload)
    (happlied : row.state = .applied → old.state = .pending → ∀ L ∈ row.payload.purges,
    ¬s.HasPayload L)
    (hadvances : s.Advances row) : (effect backend (.mergeEnvelope row) s).Consistent ∧
      Guarantee c s (effect backend (.mergeEnvelope row) s) := by
  have hmem : ∀ e, e ∈ (effect backend (.mergeEnvelope row) s).envelopes ↔
      e = row ∨ e ∈ s.envelopes ∧ e.id ≠ row.id := fun e => mem_mergeInsert
  constructor
  · refine ⟨hs.nodup,nodup_mergeInsert hs.nodupEnvelopes,hs.nodupBorn,hs.born,?_⟩
    intro L hgoverned hrows
    obtain ⟨e,he,hpending,hpurges⟩ := hs.pending L hgoverned hrows
    by_cases hne : e.id = row.id
    · obtain rfl : e = old := inj_on_of_nodup_map hs.nodupEnvelopes he hold (hne.trans hid.symm)
      rw [hpayload] at hpurges
      cases hstate : row.state with
      | pending => exact ⟨row,(hmem row).mpr (.inl rfl),hstate,hpurges⟩
      | applied => exact absurd hrows (happlied hstate hpending L hpurges)
      | failed => exact ((hadvances.2 hstate L hpurges).elim (absurd hgoverned) (absurd hrows))
    · exact ⟨e,(hmem e).mpr (.inr ⟨he,hne⟩),hpending,hpurges⟩
  · exact {(Guarantee.refl : Guarantee c s s) with
      envelopes := by
        intro e he
        by_cases hne : e.id = row.id
        · exact ⟨row,(hmem row).mpr (.inl rfl),hne.symm⟩
        · exact ⟨e,(hmem e).mpr (.inr ⟨he,hne⟩),rfl⟩
      envelopesOnly := by
        intro e he
        rcases (hmem e).mp he with rfl | ⟨he,-⟩
        · exact .inl ⟨old,hold,hid,hpayload,hadvances.1 old hold hid⟩
        · exact .inl ⟨e,he,rfl,rfl,id,id⟩}

variable (backend) in
/-- A storage call that finds what it has to keeps invariant and guarantee. -/
theorem keeps_effect {request : Request} {o : StoreOp} (hadmits : s.Admits request o)
    (hown : Own c s o) : (effect backend o s).Consistent ∧ Guarantee c s (effect backend o s) := by
  have hblob : ∀ b ∈ s.blobs, b.resourceId ∈ s.blobIds ∨ s.Open b.resourceId :=
    fun b hb => .inl (mem_map_of_mem hb)
  have hartifact : ∀ a ∈ s.artifacts, a.resourceId ∈ s.artifactIds ∨ s.Open a.resourceId :=
    fun a ha => .inl (mem_map_of_mem ha)
  cases o with
  | scan => exact ⟨hs,.refl⟩
  | appendResource row => exact keeps_appendResource hs hown.1 hown.2 hadmits
  | mergeResource row => exact keeps_mergeResource hs hown.1 hown.2 hadmits
  | deleteResource id =>
    obtain rfl : id = c := hown
    exact keeps_deleteResource hs hadmits
  | appendBlob row =>
    refine keeps_payload hs (fun b hb => ?_) hartifact
    rcases mem_append.mp hb with hb | hb
    · exact hblob b hb
    · rw [mem_singleton.mp hb]
      exact .inr hadmits
  | deleteBlob id index => exact keeps_payload hs (fun b hb => hblob b (mem_filter.mp hb).1) hartifact
  | deleteBlobs ids => exact keeps_payload hs (fun b hb => hblob b (mem_filter.mp hb).1) hartifact
  | appendArtifact row =>
    refine keeps_payload hs hblob fun a ha => ?_
    rcases mem_append.mp ha with ha | ha
    · exact hartifact a ha
    · rw [mem_singleton.mp ha]
      exact .inr hadmits
  | deleteArtifacts ids => exact keeps_payload hs hblob fun a ha => hartifact a (mem_filter.mp ha).1
  | appendEnvelope row => exact keeps_appendEnvelope hs hown.1 hown.2
  | mergeEnvelope row =>
    obtain ⟨old,hold,hid,hpayload,happlied⟩ := hown
    exact keeps_mergeEnvelope hs hold hid hpayload happlied hadmits
end
namespace Store

def Recorded (id : EnvelopeId) (payload : EnvelopePayload) (s : Store) : Prop :=
  (∃ e ∈ s.envelopes, e.id = id) ∧ ∀ e ∈ s.envelopes, e.id = id → e.payload = payload

def IsPending (s : Store) (id : EnvelopeId) : Prop := ∃ e ∈ s.envelopes, e.id = id ∧ e.state = .pending

def Closed (id : EnvelopeId) (s : Store) : Prop := (∃ e ∈ s.envelopes, e.id = id) ∧ ¬s.IsPending id
def NoBlobs (s : Store) (L : LogicalResourceId) : Prop := ∀ id ∈ s.blobIds, ¬s.Of id L
def NoArtifacts (s : Store) (L : LogicalResourceId) : Prop := ∀ id ∈ s.artifactIds, ¬s.Of id L

/-- The lineage's payload is gone, by the call's revision or by a purge that is done. -/
def Gone (c : ℕ) (L : LogicalResourceId) (s : Store) : Prop :=
  ¬s.HasPayload L ∧ ∃ x, s.Visible x ∧ x.2.1 = L ∧ x.2.2.hidesPayload = true ∧
  (x.1 = c ∨ s.PurgeApplied x.1)

theorem not_hasPayload : ¬s.HasPayload L ↔ s.NoBlobs L ∧ s.NoArtifacts L := by
  constructor
  · intro h
    exact ⟨fun id hid hof => h ⟨id,mem_append_left _ hid,hof⟩,
      fun id hid hof => h ⟨id,mem_append_right _ hid,hof⟩⟩
  · rintro ⟨hblobs,hartifacts⟩ ⟨id,hid,hof⟩
    rcases mem_append.mp hid with hid | hid
    · exact hblobs id hid hof
    · exact hartifacts id hid hof

theorem Recorded.purgePending {id : EnvelopeId} (h : s.Recorded id payload)
    (hpending : s.IsPending id) (hpurges : payload.purges = some L) : s.PurgePending L := by
  obtain ⟨e,he,hid,hstate⟩ := hpending
  exact ⟨e,he,hstate,by rw [h.2 e he hid,hpurges]⟩

theorem Purged.gone (h : s.Purged L) : s.Gone c L := by
  obtain ⟨hnone,r,hr,⟨hready,hL,hhides⟩,happlied⟩ := h
  exact ⟨hnone,r.birth,⟨r,hr,hready,rfl⟩,hL,hhides,.inr happlied⟩
end Store
variable {id : ResourceId}

section
variable {d : ℕ} (h : Guarantee d s s')
include h

variable (hs : s.Consistent)
include hs

variable (hshut : s.Governed L ∨ s.PurgePending L)
include hshut

theorem Guarantee.of_shut (hid : id ∈ s.blobIds++s.artifactIds ∨ s.Open id) (hof : s'.Of id L) :
    s.Of id L ∧ ¬s.Open id := by
  obtain ⟨y,hy,rfl,rfl⟩ := hof
  rcases h.bornOnly y hy with hy | ⟨hd,hunborn⟩
  · refine ⟨⟨y,hy,rfl,rfl⟩,?_⟩
    rintro ⟨x,hx,hxy,hfree,hnone⟩
    rw [hs.birth_eq hx hy hxy] at hfree hnone
    exact hshut.elim hfree hnone
  · rcases hid with hid | ⟨x,hx,hxy,-⟩
    · exact absurd hd (hunborn.2 y.1 hid)
    · exact absurd (hxy.trans hd) (hunborn.1 x hx)

theorem Guarantee.noBlobs (hnone : s.NoBlobs L) : s'.NoBlobs L := by
  intro id hid hof
  have hold := h.blobs id hid
  obtain ⟨hof,hclosed⟩ := h.of_shut hs hshut (hold.imp_left (mem_append_left _)) hof
  exact hnone id (hold.resolve_right hclosed) hof

theorem Guarantee.noArtifacts (hnone : s.NoArtifacts L) : s'.NoArtifacts L := by
  intro id hid hof
  have hold := h.artifacts id hid
  obtain ⟨hof,hclosed⟩ := h.of_shut hs hshut (hold.imp_left (mem_append_right _)) hof
  exact hnone id (hold.resolve_right hclosed) hof

theorem Guarantee.not_hasPayload (hnone : ¬s.HasPayload L) : ¬s'.HasPayload L := by
  rw [Store.not_hasPayload] at hnone ⊢
  exact ⟨h.noBlobs hs hshut hnone.1,h.noArtifacts hs hshut hnone.2⟩

omit hs

omit hshut

theorem Guarantee.purgeApplied (happlied : s.PurgeApplied id) (hs : s.Consistent) :
    s'.PurgeApplied id := by
  obtain ⟨e,he,hid,hstate⟩ := happlied
  obtain ⟨e',he',hid'⟩ := h.envelopes e he
  rcases h.envelopesOnly e' he' with ⟨f,hf,hff,-,-,hkeep⟩ | ⟨-,hnew⟩
  · obtain rfl : f = e := inj_on_of_nodup_map hs.nodupEnvelopes hf he (hff.trans hid')
    exact ⟨e',he',hid'.trans hid,hkeep hstate⟩
  · exact absurd hid'.symm (hnew e he)

theorem Guarantee.isPending {id : EnvelopeId}
    (hrecorded : s.Recorded id payload) (hpending : s'.IsPending id) : s.IsPending id := by
  obtain ⟨e',he',rfl,hstate⟩ := hpending
  rcases h.envelopesOnly e' he' with ⟨e,he,hid,-,hback,-⟩ | ⟨-,hnew⟩
  · exact ⟨e,he,hid,hback hstate⟩
  · obtain ⟨e,he,hid⟩ := hrecorded.1
    exact absurd hid (hnew e he)

omit h

theorem stable_unborn : Stable Store.Consistent Guarantee c fun s => s.Unborn c := by
  rintro d s s' hd - ⟨hborn,hrows⟩ h
  have hopen : ∀ id, s.Open id → id ≠ c := by
    rintro id ⟨x,hx,rfl,-⟩
    exact hborn x hx
  refine ⟨fun x hx => ?_,fun id hid => ?_⟩
  · rcases h.bornOnly x hx with hx | ⟨rfl,-⟩
    · exact hborn x hx
    · exact hd
  · rcases mem_append.mp hid with hid | hid
    · exact (h.blobs id hid).elim (fun hid => hrows id (mem_append_left _ hid)) (hopen id)
    · exact (h.artifacts id hid).elim (fun hid => hrows id (mem_append_right _ hid)) (hopen id)

theorem stable_noEnvelope : Stable Store.Consistent Guarantee c fun s => ∀ e ∈ s.envelopes,
    e.id.successorId ≠ c := by
  intro d s s' hd _ hnone h e' he'
  rcases h.envelopesOnly e' he' with ⟨e,he,hid,-⟩ | ⟨hid,-⟩
  · exact hid ▸ hnone e he
  · exact hid ▸ hd

theorem stable_visible (x : ResourceId × LogicalResourceId × ResourceGovernanceState)
    (hx : x.1 = c) : Stable Store.Consistent Guarantee c fun s => s.Visible x :=
  fun _ _ _ hd _ hvisible h => h.visible x hvisible (.inl (hx ▸ hd.symm))

theorem stable_cleared {x : ResourceId × LogicalResourceId × ResourceGovernanceState} (hx : x.1 = c)
    (hhides : x.2.2.hidesPayload) :
    Stable Store.Consistent Guarantee c fun s => s.Visible x ∧ ¬s.HasPayload x.2.1 := by
  rintro d s s' hd hs ⟨hvisible,hnone⟩ h
  exact ⟨stable_visible x hx d s s' hd hs hvisible h,
    h.not_hasPayload hs (.inl (hvisible.governed hhides)) hnone⟩

theorem stable_gone : Stable Store.Consistent Guarantee c (Store.Gone c L) := by
  rintro d s s' hd hs ⟨hnone,x,hvisible,rfl,hhides,hown⟩ h
  refine ⟨h.not_hasPayload hs (.inl (hvisible.governed hhides)) hnone,x,?_,rfl,hhides,
    hown.imp_right fun happlied => h.purgeApplied happlied hs⟩
  exact h.visible x hvisible (hown.imp_left fun hx : x.1 = c => hx ▸ hd.symm)

theorem lasting_born (x : ResourceId × LogicalResourceId × ResourceGovernanceState) :
    Lasting Store.Consistent Guarantee fun s => x ∈ s.born :=
  fun _ _ _ _ hx h => h.born x hx

theorem lasting_shown (L : LogicalResourceId) :
    Lasting Store.Consistent Guarantee fun s => s.Shown L :=
  fun _ _ _ _ hL h => h.shown L hL

theorem lasting_recorded (id : EnvelopeId) (payload : EnvelopePayload) :
    Lasting Store.Consistent Guarantee (Store.Recorded id payload) := by
  rintro d s s' - ⟨⟨e,he,hid⟩,hpayload⟩ h
  constructor
  · obtain ⟨e',he',hid'⟩ := h.envelopes e he
    exact ⟨e',he',hid'.trans hid⟩
  · intro e' he' hid'
    rcases h.envelopesOnly e' he' with ⟨f,hf,hff,hsame,-⟩ | ⟨-,hnew⟩
    · exact hsame ▸ hpayload f hf (hff.trans hid')
    · exact absurd (hid.trans hid'.symm) (hnew e he)
end
end Hirn.Resources
