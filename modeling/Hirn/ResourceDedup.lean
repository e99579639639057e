import Hirn.ResourceResults
import Hirn.Runs

/-! Persisting by content. One call after the other, and no storage call fails: which bytes a revision's
checksum is the hash of, and when bytes that are already there are found. -/
namespace Hirn.Resources
open Engine Calls Runs List Option Prod

inductive Call
  | persist (draft : ResourceObjectBuilder) (blob : Option Bytes) (now : Timestamp)
  | supersede (resourceId : ResourceId) (supersession : ResourceSupersession) (blob : Option Bytes)
      (now : Timestamp)

namespace Call

def code (env : Env) (id : ResourceId) : Call → Act ResourceObject
  | persist draft blob now => persistResource env (draft.build id now) blob
  | supersede resourceId u blob now => supersedeResource env id now resourceId u blob

def NoChecksum : Call → Prop
  | persist draft _ _ => draft.checksum = none
  | supersede _ u _ _ => u.checksum = none
end Call

structure Machine where
  store : Store
  /-- The calls so far; their number is the next fresh identifier. -/
  calls : ℕ

namespace Machine

def init : Machine := ⟨.empty,0⟩

variable (env : Env) (backend : Backend)

def step (m : Machine) (call : Call) : Machine :=
  ⟨(perform (effect backend) (call.code env m.calls) m.store).2,m.calls+1⟩

def answer (m : Machine) (call : Call) : Except HirnDbError ResourceObject :=
  (perform (effect backend) (call.code env m.calls) m.store).1
end Machine
open Machine

def submitted (draft : ResourceObjectBuilder) (blob : Option Bytes) : Option Bytes :=
  if draft.location.isBlob then blob else none

variable (env : Env) (backend : Backend)

/-- The revision carries the hash of exactly the bytes that are stored for it. -/
def Store.Faithful (s : Store) (r : ResourceObject) : Prop :=
  ∀ blobIndex, r.location = .blob blobIndex →
    ∃ data, s.blob? r.id blobIndex = some data ∧ r.checksum = some (env.hash data)

def Store.HasCopy (s : Store) (L : LogicalResourceId) (ns : Namespace) (data : Bytes) : Prop :=
  ∃ h, s.head L = some h ∧ h.supersededBy = none ∧ h.ns = ns ∧ s.bytes? h = some data

/-- What is persisted is new or a copy, and a copy if there is one. -/
structure Machine.Deduplicates (m : Machine) (draft : ResourceObjectBuilder) (blob : Option Bytes)
    (now : Timestamp) : Prop where
  copy : ∀ r, m.answer env backend (.persist draft blob now) = .ok r → r ∈ m.store.resources →
    ∃ data, submitted draft blob = some data ∧ m.store.HasCopy r.logicalResourceId draft.ns data
  reuse : ∀ data L, submitted draft blob = some data → m.store.HasCopy L draft.ns data →
    (∃ r ∈ m.store.resources, m.answer env backend (.persist draft blob now) = .ok r) ∧
      (m.step env backend (.persist draft blob now)).store = m.store

/-- Behind the call revisions are faithful, and it has persisted by content. -/
def Machine.Right (m : Machine) (call : Call) : Prop :=
  (∀ r ∈ (m.step env backend call).store.resources, (m.step env backend call).store.Faithful env r) ∧
    match call with
    | .persist draft blob now => m.Deduplicates env backend draft blob now
    | .supersede .. => True

/-- The first row with the hash is a live copy, or superseded with no live copy behind. -/
def Store.findsCopies (s : Store) (ns : Namespace) (data : Bytes) : Bool :=
  match s.withChecksum ns (env.hash data) with
  | none => true
  | some r =>
    if r.supersededBy = none then r.location.isBlob
    else !s.resources.any fun h =>
      h.supersededBy = none ∧ h.location.isBlob ∧ h.ns = ns ∧ h.checksum = some (env.hash data)

def ResourceObject.takes (current : ResourceObject) (u : ResourceSupersession) (data : Bytes) : Bool :=
  !(u.location.getD current.location).isBlob || current.checksum = none || current.checksum =
  some (env.hash data)

def Machine.decidesWell (m : Machine) : Call → Bool
  | .persist draft blob _ => (submitted draft blob).all (m.store.findsCopies env draft.ns)
  | .supersede resourceId u blob _ => (m.store.headOf resourceId).all fun current =>
      blob.all (current.takes env u)

/-- What every run keeps when no call fails. -/
structure Machine.Tidy (m : Machine) : Prop where
  nodup : (m.store.resources.map (·.id)).Nodup
  ready : ∀ r ∈ m.store.resources, r.storageReady = true
  old : ∀ r ∈ m.store.resources, r.id < m.calls ∧ r.logicalResourceId < m.calls
  oldBlobs : ∀ b ∈ m.store.blobs, b.resourceId < m.calls
  oldEnvelopes : ∀ e ∈ m.store.envelopes, ∀ id, e.id = .resourceHead id → id < m.calls
  headed : ∀ r ∈ m.store.resources, ∃ h ∈ m.store.resources,
    h.logicalResourceId = r.logicalResourceId ∧ h.supersededBy = none
  single : ∀ r ∈ m.store.resources, ∀ h ∈ m.store.resources, r.logicalResourceId =
    h.logicalResourceId → r.supersededBy = none → h.supersededBy = none → r = h

variable {s t : Store} {rows : List ResourceBlobRow} {id : ResourceId} {blobIndex : ℕ} {data : Bytes}

theorem blob?_append_of_ne (ht : t.blobs = s.blobs++rows) (h : ∀ b ∈ rows, b.resourceId ≠ id) :
    t.blob? id blobIndex = s.blob? id blobIndex := by
  have hnone : rows.find? (fun b => decide (b.resourceId = id ∧ b.blobIndex = blobIndex)) = none := by
    rw [find?_eq_none]
    intro b hb
    simp [h b hb]
  rw [Store.blob?,ht,find?_append,hnone,or_none,Store.blob?]

theorem blob?_append_new (ht : t.blobs = s.blobs++[⟨id,blobIndex,data⟩])
    (h : ∀ b ∈ s.blobs, b.resourceId ≠ id) : t.blob? id blobIndex = some data := by
  have hnone : s.blobs.find? (fun b => decide (b.resourceId = id ∧ b.blobIndex = blobIndex)) =
    none := by
    rw [find?_eq_none]
    intro b hb
    simp [h b hb]
  rw [Store.blob?,ht,find?_append,hnone]
  simp

variable {r : ResourceObject} {env} {data : Option Bytes} {backend}

/-- An append keeps all faithful if the new revision has the hash of its bytes. -/
theorem faithful_appended_iff (hready : r.storageReady) (hfresh : ∀ a ∈ s.resources, a.id ≠ r.id)
    (hblobs : ∀ b ∈ s.blobs, b.resourceId ≠ r.id) :
    (∀ a ∈ (s.appended backend r data).resources, (s.appended backend r data).Faithful env a) ↔
      (∀ a ∈ s.resources, s.Faithful env a) ∧
        (r.location.isBlob → ∃ d, data = some d ∧ r.checksum = some (env.hash d)) := by
  have hrows : (s.appended backend r data).blobs = s.blobs++_ := appended_blobs
  have hold : ∀ a ∈ s.resources, (s.appended backend r data).Faithful env a ↔ s.Faithful env a := by
    intro a ha
    refine forall₂_congr fun i _ => ?_
    rw [blob?_append_of_ne hrows]
    intro b hb
    split at hb
    · rw [mem_singleton.mp hb]
      exact (hfresh a ha).symm
    · cases hb
  have hnew : (s.appended backend r data).Faithful env r ↔
      (r.location.isBlob → ∃ d, data = some d ∧ r.checksum = some (env.hash d)) := by
    cases hlocation : r.location with
    | inline => simp [Store.Faithful,hlocation,ResourceLocation.isBlob]
    | external uri => simp [Store.Faithful,hlocation,ResourceLocation.isBlob]
    | blob i =>
      rw [hlocation] at hrows
      cases data with
      | none =>
        have hnone : (s.appended backend r none).blob? r.id i = none := by
          have hfind : s.blobs.find? (fun b => decide (b.resourceId = r.id ∧ b.blobIndex = i)) =
            none := by
            rw [find?_eq_none]
            intro b hb
            simp [hblobs b hb]
          rw [Store.blob?,hrows,append_nil,hfind,map_none]
        simp [Store.Faithful,hlocation,ResourceLocation.isBlob,hnone]
      | some d => simp [Store.Faithful,hlocation,ResourceLocation.isBlob,blob?_append_new hrows hblobs]
  constructor
  · intro h
    exact ⟨fun a ha => (hold a ha).mp (h a ((mem_appended_resources hready hfresh).mpr (.inl ha))),
      hnew.mp (h r ((mem_appended_resources hready hfresh).mpr (.inr rfl)))⟩
  · rintro ⟨hall,hlast⟩ a ha
    rcases (mem_appended_resources hready hfresh).mp ha with hmem | rfl
    · exact (hold a hmem).mpr (hall a hmem)
    · exact hnew.mpr hlast

variable (env backend s) in
theorem forall_faithful_supersede {rows : List ResourceObject} (hnodup : (rows.map (·.id)).Nodup)
    (hr : r ∈ rows) (successorId : ResourceId) (now : Timestamp) :
    (∀ a ∈ mergeInsert backend.resourceOrder ResourceObject.id (r.supersede successorId now) rows,
    s.Faithful env a) ↔
      ∀ a ∈ rows, s.Faithful env a := by
  constructor
  · intro h a ha
    by_cases hid : a.id = r.id
    · rw [inj_on_of_nodup_map hnodup ha hr hid]
      exact h (r.supersede successorId now) (mem_mergeInsert.mpr (.inl rfl))
    · exact h a (mem_mergeInsert.mpr (.inr ⟨ha,hid⟩))
  · intro h a ha
    rcases mem_mergeInsert.mp ha with rfl | ⟨hmem,-⟩
    · exact h r hr
    · exact h a hmem

variable {m : Machine}

section
variable (h : m.Tidy)
include h

theorem Machine.Tidy.later : Machine.Tidy ⟨m.store,m.calls+1⟩ where
  nodup := h.nodup
  ready := h.ready
  old r hr := ⟨Nat.lt_succ_of_lt (h.old r hr).1,Nat.lt_succ_of_lt (h.old r hr).2⟩
  oldBlobs b hb := Nat.lt_succ_of_lt (h.oldBlobs b hb)
  oldEnvelopes e he id hid := Nat.lt_succ_of_lt (h.oldEnvelopes e he id hid)
  headed := h.headed
  single := h.single

variable (hid : r.id = m.calls)
include hid

theorem Machine.Tidy.fresh : ∀ a ∈ m.store.resources, a.id ≠ r.id :=
  fun a ha => ((h.old a ha).1.trans_eq hid.symm).ne

theorem Machine.Tidy.freshBlobs : ∀ b ∈ m.store.blobs, b.resourceId ≠ r.id :=
  fun b hb => ((h.oldBlobs b hb).trans_eq hid.symm).ne

theorem oldBlobs_appended (s : Store) (hs : s.blobs = m.store.blobs) :
    ∀ b ∈ (s.appended backend r data).blobs, b.resourceId < m.calls+1 := by
  intro b hb
  rw [appended_blobs,mem_append,hs] at hb
  rcases hb with hb | hb
  · exact Nat.lt_succ_of_lt (h.oldBlobs b hb)
  · split at hb
    · rw [mem_singleton.mp hb]
      exact Nat.lt_succ_of_le hid.le
    · cases hb

theorem Machine.Tidy.append (hlineage : r.logicalResourceId = m.calls)
    (hready : r.storageReady) (hlive : r.supersededBy = none) :
    Machine.Tidy ⟨m.store.appended backend r data,m.calls+1⟩ := by
  have hmem : ∀ a, a ∈ (m.store.appended backend r data).resources ↔ a ∈ m.store.resources ∨ a = r :=
    fun a => mem_appended_resources hready (h.fresh hid)
  refine ⟨nodup_appended_resources h.nodup (h.fresh hid),fun a ha => ?_,fun a ha => ?_,
    oldBlobs_appended h hid _ rfl,fun e he id hid => ?_,fun a ha =>
    ?_,fun a ha b hb hsame hlivea hliveb => ?_⟩
  · rcases (hmem a).mp ha with ha | rfl
    · exact h.ready a ha
    · exact hready
  · rcases (hmem a).mp ha with ha | rfl
    · exact ⟨Nat.lt_succ_of_lt (h.old a ha).1,Nat.lt_succ_of_lt (h.old a ha).2⟩
    · exact ⟨Nat.lt_succ_of_le hid.le,Nat.lt_succ_of_le hlineage.le⟩
  · rw [appended_envelopes] at he
    exact Nat.lt_succ_of_lt (h.oldEnvelopes e he id hid)
  · rcases (hmem a).mp ha with ha | rfl
    · obtain ⟨b,hb,hsame,hnone⟩ := h.headed a ha
      exact ⟨b,(hmem b).mpr (.inl hb),hsame,hnone⟩
    · exact ⟨a,ha,rfl,hlive⟩
  · have hother : ∀ c ∈ m.store.resources, c.logicalResourceId ≠ r.logicalResourceId :=
      fun c hc => ((h.old c hc).2.trans_eq hlineage.symm).ne
    rcases (hmem a).mp ha with hold | hnew <;> rcases (hmem b).mp hb with hold' | hnew'
    · exact h.single a hold b hold' hsame hlivea hliveb
    · exact absurd (hnew' ▸ hsame) (hother a hold)
    · exact absurd (hnew ▸ hsame).symm (hother b hold')
    · rw [hnew,hnew']

omit hid

/-- A lineage whose head gives way to the new revision. -/
theorem Machine.Tidy.supersede (hcurrent : current ∈ m.store.resources)
    (hhead : current.supersededBy = none) (hid : r.id = m.calls)
    (hlineage : r.logicalResourceId = current.logicalResourceId) (hready : r.storageReady)
    (hlive : r.supersededBy = none) (now : Timestamp) :
    Machine.Tidy ⟨m.store.superseded backend now current r data,m.calls+1⟩ := by
  have hne : current.id ≠ r.id := h.fresh hid current hcurrent
  have hmem : ∀ a, a ∈ (m.store.superseded backend now current r data).resources ↔
      a = current.supersede r.id now ∨ (a ∈ m.store.resources ∨ a = r) ∧ a.id ≠ current.id := by
    intro a
    exact mem_mergeInsert.trans (or_congr_right
      (and_congr_left' (mem_appended_resources hready (h.fresh hid))))
  have hlast : r ∈ (m.store.superseded backend now current r data).resources :=
    (hmem r).mpr (.inr ⟨.inr rfl,hne.symm⟩)
  -- a live revision is an old one of another lineage or the new one
  have hcases : ∀ a ∈ (m.store.superseded backend now current r data).resources, a.supersededBy =
      none → a ∈ m.store.resources ∧ a.logicalResourceId ≠ current.logicalResourceId ∨ a = r := by
    intro a ha hnone
    rcases (hmem a).mp ha with rfl | ⟨hold | rfl,hother⟩
    · cases hnone
    · refine .inl ⟨hold,fun hsame => hother ?_⟩
      rw [h.single a hold current hcurrent hsame hnone hhead]
    · exact .inr rfl
  refine ⟨?_,fun a ha => ?_,fun a ha => ?_,oldBlobs_appended h hid _ rfl,fun e he id heid => ?_,
    fun a ha => ?_, fun a ha b hb hsame hlivea hliveb => ?_⟩
  · exact nodup_mergeInsert (nodup_appended_resources h.nodup (h.fresh hid))
  · rcases (hmem a).mp ha with rfl | ⟨hold | rfl,-⟩
    · exact h.ready current hcurrent
    · exact h.ready a hold
    · exact hready
  · rcases (hmem a).mp ha with rfl | ⟨hold | rfl,-⟩
    · exact (h.later.old current hcurrent)
    · exact h.later.old a hold
    · exact ⟨Nat.lt_succ_of_le hid.le,hlineage.trans_lt (h.later.old current hcurrent).2⟩
  · rcases mem_mergeInsert.mp he with rfl | ⟨hmem,-⟩
    · exact Nat.lt_succ_of_le ((EnvelopeId.resourceHead.inj heid).symm.trans hid).le
    · change e ∈ (Store.appended backend _ r data).envelopes at hmem
      rw [appended_envelopes] at hmem
      rcases mem_append.mp hmem with hold | hnew
      · exact h.later.oldEnvelopes e hold id heid
      · rw [mem_singleton.mp hnew] at heid
        exact Nat.lt_succ_of_le ((EnvelopeId.resourceHead.inj heid).symm.trans hid).le
  · by_cases hsame : a.logicalResourceId = current.logicalResourceId
    · exact ⟨r,hlast,hlineage.trans hsame.symm,hlive⟩
    · have hold : a ∈ m.store.resources := by
        rcases (hmem a).mp ha with rfl | ⟨hold | rfl,-⟩
        · exact absurd rfl hsame
        · exact hold
        · exact absurd hlineage hsame
      obtain ⟨b,hb,hlineageb,hnone⟩ := h.headed a hold
      refine ⟨b,(hmem b).mpr (.inr ⟨.inl hb,fun hidb => hsame ?_⟩),hlineageb,hnone⟩
      rw [← hlineageb,inj_on_of_nodup_map h.nodup hb hcurrent hidb]
  · rcases hcases a ha hlivea with ⟨hold,hother⟩ | rfl <;> rcases hcases b hb
      hliveb with ⟨hold',hother'⟩ | rfl
    · exact h.single a hold b hold' hsame hlivea hliveb
    · exact absurd (hsame.trans hlineage) hother
    · exact absurd (hsame.symm.trans hlineage) hother'
    · rfl
end
section
variable {h : ResourceObject} {data : Bytes}

theorem Machine.Tidy.headedStore (ht : m.Tidy) : m.store.Headed where
  headed r hr _ := by
    obtain ⟨h,hh,hsame,hlive⟩ := ht.headed r hr
    exact ⟨h,hh,hsame,ht.ready h hh,hlive⟩
  single r hr h hh hsame _ _ hlive hliveh := ht.single r hr h hh hsame hlive hliveh

theorem Machine.Tidy.head (ht : m.Tidy) (hr : r ∈ m.store.resources)
    (hlive : r.supersededBy = none) : m.store.head r.logicalResourceId = some r :=
  ht.headedStore.head hr (ht.ready r hr) hlive

theorem Machine.Tidy.of_headOf (ht : m.Tidy) (hhead : m.store.headOf resourceId = some h) :
    h ∈ m.store.resources ∧ h.supersededBy = none := by
  obtain ⟨hmem,-,hlive⟩ := ht.headedStore.of_headOf hhead
  exact ⟨hmem,hlive⟩

theorem checksum_of_bytes? (hfaithful : m.store.Faithful env r) (h : m.store.bytes? r = some data) :
    r.checksum = some (env.hash data) := by
  unfold Store.bytes? at h
  split at h
  next i hlocation =>
    obtain ⟨d,hd,hchecksum⟩ := hfaithful i hlocation
    rw [hchecksum,some.inj (hd.symm.trans h)]
  · cases h

theorem bytes?_eq_some_iff (hash : Function.Injective env.hash) (hfaithful : m.store.Faithful env r) :
    m.store.bytes? r = some data ↔ r.location.isBlob ∧ r.checksum = some (env.hash data) := by
  unfold Store.bytes?
  cases hlocation : r.location with
  | inline => simp [ResourceLocation.isBlob]
  | external uri => simp [ResourceLocation.isBlob]
  | blob i =>
    obtain ⟨d,hd,hchecksum⟩ := hfaithful i hlocation
    simp [ResourceLocation.isBlob,hd,hchecksum,hash.eq_iff]

theorem exists_hasCopy_iff (ht : m.Tidy) (hash : Function.Injective env.hash)
    (hfaithful : ∀ a ∈ m.store.resources, m.store.Faithful env a) :
    (∃ L, m.store.HasCopy L ns data) ↔ ∃ h ∈ m.store.resources, h.supersededBy = none ∧
    h.location.isBlob ∧
      h.ns = ns ∧ h.checksum = some (env.hash data) := by
  constructor
  · rintro ⟨L,h,hhead,hlive,hns,hbytes⟩
    have hmem := (Store.head_mem hhead).1
    obtain ⟨hblob,hchecksum⟩ := (bytes?_eq_some_iff hash (hfaithful h hmem)).mp hbytes
    exact ⟨h,hmem,hlive,hblob,hns,hchecksum⟩
  · rintro ⟨h,hmem,hlive,hblob,hns,hchecksum⟩
    exact ⟨h.logicalResourceId,h,ht.head hmem hlive,hlive,hns,
      (bytes?_eq_some_iff hash (hfaithful h hmem)).mpr ⟨hblob,hchecksum⟩⟩
end
variable {now : Timestamp} {blob : Option Bytes}

section
variable {data : Bytes}

theorem submitted_eq_some (h : submitted draft blob = some data) :
    draft.location.isBlob ∧ blob = some data := by
  unfold submitted at h
  split at h
  next hblob => exact ⟨hblob,h⟩
  · cases h

variable (env backend m now) in
theorem perform_persist_some (hnone : draft.checksum = none)
    (hsubmitted : submitted draft blob = some data) :
    perform (effect backend) (persistResource env (draft.build m.calls now) blob) m.store =
      match m.store.liveMatch draft.ns (env.hash data) with
      | some existing => (.ok existing,m.store)
      | none => (.ok (syncBlobMetadata env (draft.build m.calls now) data),
          m.store.appended backend (syncBlobMetadata env (draft.build m.calls now) data)
          (some data)) := by
  obtain ⟨hblob,rfl⟩ := submitted_eq_some hsubmitted
  obtain ⟨e,he⟩ := perform_persistResource backend m.store env (draft.build m.calls now) (some data)
  have hprepared : m.store.prepared env none (draft.build m.calls now) (some data) =
      some (syncBlobMetadata env (draft.build m.calls now) data,some data) := by
    rw [Store.prepared,show (draft.build m.calls now).location = draft.location from rfl]
    cases hlocation : draft.location with
    | blob i => rfl
    | inline => rw [hlocation] at hblob; cases hblob
    | external uri => rw [hlocation] at hblob; cases hblob
  have hchecksum : (syncBlobMetadata env (draft.build m.calls now) data).checksum =
    some (env.hash data) := by
    simp [syncBlobMetadata,ResourceObjectBuilder.build,hnone]
  rw [he,hprepared]
  dsimp only
  rw [hchecksum]
  rfl

theorem perform_persist_none (hnone : draft.checksum = none)
    (hsubmitted : submitted draft blob = none) :
    (∃ e, perform (effect backend) (persistResource env (draft.build m.calls now) blob) m.store =
    (.error e,m.store)) ∨
      draft.location.isBlob = false ∧
        perform (effect backend) (persistResource env (draft.build m.calls now) blob) m.store =
          (.ok (draft.build m.calls now),m.store.appended backend (draft.build m.calls now) none) := by
  obtain ⟨e,he⟩ := perform_persistResource backend m.store env (draft.build m.calls now) blob
  rw [he]
  cases hprepared : m.store.prepared env none (draft.build m.calls now) blob with
  | none => exact .inl ⟨e,rfl⟩
  | some p =>
    obtain ⟨r,d⟩ := p
    rcases prepared_eq_some hprepared with ⟨hblob,d,hd,-,-⟩ | ⟨hblob,-,rfl,rfl⟩
    · change draft.location.isBlob = true at hblob
      rw [submitted,if_pos hblob] at hsubmitted
      rw [hsubmitted] at hd
      cases hd
    · refine .inr ⟨hblob,?_⟩
      have hchecksum : (draft.build m.calls now).checksum = none := hnone
      dsimp only
      rw [hchecksum]
      rfl

theorem Machine.Tidy.liveMatch (ht : m.Tidy) (ns : Namespace) (checksum : String) :
    m.store.liveMatch ns checksum = (m.store.withChecksum ns checksum).filter fun r =>
    r.supersededBy = none := by
  unfold Store.liveMatch
  cases hfirst : m.store.withChecksum ns checksum with
  | none => rfl
  | some r => simp [filter_some,ht.ready r (mem_of_find?_eq_some hfirst)]

theorem Machine.Tidy.not_mem (ht : m.Tidy) (hid : r.id = m.calls) : r ∉ m.store.resources :=
  fun hr => ht.fresh hid r hr rfl

variable {d : Option Bytes}

theorem right_iff_of_append (ht : m.Tidy) (hfaithful : ∀ a ∈ m.store.resources, m.store.Faithful env a)
    (hid : r.id = m.calls) (hready : r.storageReady)
    (hnew : r.location.isBlob → ∃ data, d = some data ∧ r.checksum = some (env.hash data))
    (hrun : perform (effect backend) (persistResource env (draft.build m.calls now) blob) m.store =
      (.ok r,m.store.appended backend r d)) : m.Right env backend (.persist draft blob now) ↔
      ∀ data, submitted draft blob = some data → ¬∃ L, m.store.HasCopy L draft.ns data := by
  have hanswer : m.answer env backend (.persist draft blob now) = .ok r := congrArg fst hrun
  have hstore : (m.step env backend (.persist draft blob now)).store = m.store.appended backend r d :=
    congrArg snd hrun
  constructor
  · rintro ⟨-,-,hreuse⟩ data hdata ⟨L,hcopy⟩
    obtain ⟨⟨a,ha,hreused⟩,-⟩ := hreuse data L hdata hcopy
    rw [hanswer,Except.ok.injEq] at hreused
    exact ht.not_mem hid (hreused ▸ ha)
  · intro hno
    refine ⟨?_,fun a ha hmem => ?_,fun data L hdata hcopy => absurd ⟨L,hcopy⟩ (hno data hdata)⟩
    · rw [hstore]
      exact (faithful_appended_iff hready (ht.fresh hid) (ht.freshBlobs hid)).mpr ⟨hfaithful,hnew⟩
    · rw [hanswer,Except.ok.injEq] at ha
      exact absurd (ha ▸ hmem) (ht.not_mem hid)

section
variable (hfaithful : ∀ a ∈ m.store.resources, m.store.Faithful env a)
include hfaithful

theorem right_iff_of_existing (hr : r ∈ m.store.resources)
    (hrun : perform (effect backend) (persistResource env (draft.build m.calls now) blob) m.store =
    (.ok r,m.store)) : m.Right env backend (.persist draft blob now) ↔
      ∃ data, submitted draft blob = some data ∧
      m.store.HasCopy r.logicalResourceId draft.ns data := by
  have hanswer : m.answer env backend (.persist draft blob now) = .ok r := congrArg fst hrun
  have hstore : (m.step env backend (.persist draft blob now)).store = m.store := congrArg snd hrun
  constructor
  · rintro ⟨-,hcopy,-⟩
    exact hcopy r hanswer hr
  · intro hcopy
    refine ⟨by rwa [hstore],fun a ha _ => ?_,fun _ _ _ _ => ⟨⟨r,hr,hanswer⟩,hstore⟩⟩
    rw [hanswer,Except.ok.injEq] at ha
    exact ha ▸ hcopy

theorem right_of_error (hsubmitted : submitted draft blob = none) {e : HirnDbError}
    (hrun : perform (effect backend) (persistResource env (draft.build m.calls now) blob) m.store =
      (.error e,m.store)) : m.Right env backend (.persist draft blob now) := by
  have hanswer : m.answer env backend (.persist draft blob now) = .error e := congrArg fst hrun
  have hstore : (m.step env backend (.persist draft blob now)).store = m.store := congrArg snd hrun
  refine ⟨by rwa [hstore],fun a ha => ?_,fun data _ hdata => ?_⟩
  · rw [hanswer] at ha
    cases ha
  · rw [hsubmitted] at hdata
    cases hdata
end

theorem persist_right_iff (ht : m.Tidy) (hash : Function.Injective env.hash)
    (hfaithful : ∀ a ∈ m.store.resources, m.store.Faithful env a) (hnone : draft.checksum = none) :
    m.Right env backend (.persist draft blob now) ↔ m.decidesWell env (.persist draft blob now) := by
  rw [decidesWell]
  cases hsubmitted : submitted draft blob with
  | none =>
    refine iff_of_true ?_ rfl
    rcases perform_persist_none hnone hsubmitted with ⟨e,hrun⟩ | ⟨hblob,hrun⟩
    · exact right_of_error hfaithful hsubmitted hrun
    · refine (right_iff_of_append ht hfaithful rfl rfl (fun h => ?_) hrun).mpr fun data hdata => ?_
      · exact absurd (h.symm.trans hblob) (by simp)
      · rw [hsubmitted] at hdata
        cases hdata
  | some data =>
    rw [all_some,Store.findsCopies]
    have hrun := perform_persist_some env backend m now hnone hsubmitted
    rw [ht.liveMatch] at hrun
    let new := syncBlobMetadata env (draft.build m.calls now) data
    have hchecksum : new.checksum = some (env.hash data) := by
      simp [new,syncBlobMetadata,ResourceObjectBuilder.build,hnone]
    have hright : perform (effect backend) (persistResource env (draft.build m.calls now) blob)
        m.store = (.ok new,m.store.appended backend new (some data)) →
        (m.Right env backend (.persist draft blob now) ↔ ¬∃ L, m.store.HasCopy L draft.ns data) := by
      intro hrun
      rw [right_iff_of_append ht hfaithful rfl rfl (fun _ => ⟨data,rfl,hchecksum⟩) hrun,hsubmitted]
      simp
    cases hfirst : m.store.withChecksum draft.ns (env.hash data) with
    | none =>
      rw [hfirst] at hrun
      refine iff_of_true ((hright hrun).mpr ?_) rfl
      rw [exists_hasCopy_iff ht hash hfaithful]
      rintro ⟨h,hh,-,-,hns,hchecksum⟩
      exact absurd (find?_eq_none.mp hfirst h hh) (by simp [hns,hchecksum])
    | some r =>
      rw [hfirst] at hrun
      have hr : r ∈ m.store.resources := mem_of_find?_eq_some hfirst
      have hsame : r.checksum = some (env.hash data) ∧ r.ns = draft.ns := by
        simpa using find?_some hfirst
      by_cases hlive : r.supersededBy = none
      · rw [filter_some,if_pos (by simpa using hlive)] at hrun
        rw [right_iff_of_existing hfaithful hr hrun]
        simp only [hlive,hsubmitted,some.injEq,exists_eq_left']
        constructor
        · rintro ⟨h,hhead,-,-,hbytes⟩
          rw [ht.head hr hlive,some.injEq] at hhead
          exact ((bytes?_eq_some_iff hash (hfaithful h (hhead ▸ hr))).mp hbytes).1.symm ▸ (hhead ▸ rfl)
        · intro hblob
          exact ⟨r,ht.head hr hlive,hlive,hsame.2,
            (bytes?_eq_some_iff hash (hfaithful r hr)).mpr ⟨hblob,hsame.1⟩⟩
      · rw [filter_some,if_neg (by simpa using hlive)] at hrun
        rw [hright hrun,exists_hasCopy_iff ht hash hfaithful]
        simp [hlive]
end

theorem faithful_superseded_iff (ht : m.Tidy) (hcurrent : current ∈ m.store.resources)
    (hid : successor.id = m.calls) (hready : successor.storageReady) :
    (∀ a ∈ (m.store.superseded backend now current successor data).resources,
      (m.store.superseded backend now current successor data).Faithful env a) ↔
      (∀ a ∈ m.store.resources, m.store.Faithful env a) ∧
        (successor.location.isBlob → ∃ d, data = some d ∧ successor.checksum = some (env.hash d)) := by
  let begun := effect backend (.appendEnvelope
    (buildResourceHeadTransitionEnvelope now current successor)) m.store
  have hfresh : ∀ a ∈ begun.resources, a.id ≠ successor.id := ht.fresh hid
  have hnodup : ((begun.appended backend successor data).resources.map (·.id)).Nodup :=
    nodup_appended_resources ht.nodup hfresh
  have hstored : current ∈ (begun.appended backend successor data).resources :=
    (mem_appended_resources hready hfresh).mpr (.inl hcurrent)
  have hsame := forall_faithful_supersede env backend (begun.appended backend successor data) hnodup
    hstored successor.id now
  exact hsame.trans (faithful_appended_iff hready hfresh (ht.freshBlobs hid))

/-- A call that supersedes changes nothing, or makes a successor of the head. -/
theorem supersede_cases (ht : m.Tidy) (hnone : u.checksum = none) :
    (m.decidesWell env (.supersede resourceId u blob now) ∧
      (m.step env backend (.supersede resourceId u blob now)).store = m.store) ∨
    ∃ current successor data, m.store.headOf resourceId = some current ∧
      (m.step env backend (.supersede resourceId u blob now)).store =
        m.store.superseded backend now current successor data ∧
      successor.id = m.calls ∧ successor.logicalResourceId = current.logicalResourceId ∧
      successor.storageReady ∧ successor.supersededBy = none ∧
      ((∀ a ∈ m.store.resources, m.store.Faithful env a) →
        ((successor.location.isBlob → ∃ d, data = some d ∧ successor.checksum = some (env.hash d)) ↔
          m.decidesWell env (.supersede resourceId u blob now))) := by
  have hfresh : ∀ e ∈ m.store.envelopes, e.id ≠ .resourceHead m.calls :=
    fun e he heq => (ht.oldEnvelopes e he m.calls heq).false
  obtain ⟨e,he⟩ := perform_supersedeResource backend hfresh now resourceId u blob
  have hstep : (m.step env backend (.supersede resourceId u blob now)).store = _ := congrArg snd he
  rw [hstep,decidesWell]
  cases hhead : m.store.headOf resourceId with
  | none => exact .inl ⟨rfl,rfl⟩
  | some current =>
    obtain ⟨hcurrent,-⟩ := ht.of_headOf hhead
    dsimp only
    rw [all_some]
    generalize hresource : u.apply (buildSuccessorRevision m.calls current
      (normalizeOptionalString env u.reason) now) = resource
    have hlocation : resource.location = u.location.getD current.location := by rw [← hresource]; rfl
    have hchecksum : resource.checksum = current.checksum := by
      rw [← hresource]
      simp [ResourceSupersession.apply,buildSuccessorRevision,hnone]
    cases hprepared : m.store.prepared env (some current) resource blob with
    | none =>
      refine .inl ⟨?_,rfl⟩
      cases blob with
      | none => rfl
      | some data =>
        rw [all_some,ResourceObject.takes,← hlocation]
        unfold Store.prepared at hprepared
        cases hl : resource.location with
        | blob i => simp [hl] at hprepared
        | inline => rfl
        | external uri => rfl
    | some p =>
      obtain ⟨successor,data⟩ := p
      refine .inr ⟨current,successor,data,rfl,rfl,?_⟩
      have hready : resource.storageReady := hresource ▸ ht.ready current hcurrent
      rcases prepared_eq_some hprepared with ⟨hblob,d,hd,rfl,rfl⟩ | ⟨hblob,rfl,rfl,rfl⟩
      · refine ⟨hresource ▸ rfl,hresource ▸ rfl,hready,hresource ▸ rfl,fun hfaithful => ?_⟩
        have hstored : (syncBlobMetadata env resource d).checksum = current.checksum.or
          (some (env.hash d)) := by
          rw [syncBlobMetadata,hchecksum]
        simp only [some.injEq,exists_eq_left',hstored]
        cases blob with
        | some data =>
          obtain rfl : data = d := by simpa using hd
          rw [all_some,ResourceObject.takes,← hlocation]
          change (resource.location.isBlob = true → _) ↔ _
          cases current.checksum <;> simp [hblob]
        | none =>
          -- the bytes are those of the head, which has their hash
          refine iff_of_true (fun _ => ?_) rfl
          have hbytes : m.store.bytes? current = some d := by simpa using hd
          rw [checksum_of_bytes? (hfaithful current hcurrent) hbytes,some_or]
      · refine ⟨hresource ▸ rfl,hresource ▸ rfl,hready,hresource ▸ rfl,
          fun _ => iff_of_true (fun h => ?_) rfl⟩
        exact absurd (h.symm.trans hblob) (by simp)

theorem supersede_right_iff (ht : m.Tidy) (hfaithful : ∀ a ∈ m.store.resources, m.store.Faithful env a)
    (hnone : u.checksum = none) : m.Right env backend (.supersede resourceId u blob now) ↔
      m.decidesWell env (.supersede resourceId u blob now) := by
  rw [Machine.Right,and_true]
  rcases supersede_cases ht hnone with ⟨hwell,hstore⟩ |
    ⟨current,successor,data,hhead,hstore,hid,-,hready,-,hchecksum⟩
  · rw [hstore]
    exact iff_of_true hfaithful hwell
  · rw [hstore,faithful_superseded_iff ht (ht.of_headOf hhead).1 hid hready,hchecksum hfaithful]
    exact and_iff_right hfaithful

theorem right_iff (ht : m.Tidy) (hash : Function.Injective env.hash)
    (hfaithful : ∀ a ∈ m.store.resources, m.store.Faithful env a) (hnone : call.NoChecksum) :
    m.Right env backend call ↔ m.decidesWell env call := by
  cases call with
  | persist draft blob now => exact persist_right_iff ht hash hfaithful hnone
  | supersede resourceId u blob now => exact supersede_right_iff ht hfaithful hnone

theorem Machine.Tidy.step (ht : m.Tidy) (hnone : call.NoChecksum) :
    (m.step env backend call).Tidy := by
  cases call with
  | persist draft blob now =>
    have hstep : m.step env backend (.persist draft blob now) =
      ⟨(perform (effect backend) (persistResource env (draft.build m.calls now) blob) m.store).2,
      m.calls+1⟩ := rfl
    rw [hstep]
    cases hsubmitted : submitted draft blob with
    | none =>
      rcases perform_persist_none hnone hsubmitted with ⟨e,hrun⟩ | ⟨-,hrun⟩
      · rw [hrun]
        exact ht.later
      · rw [hrun]
        exact ht.append rfl rfl rfl rfl
    | some data =>
      rw [perform_persist_some env backend m now hnone hsubmitted]
      cases m.store.liveMatch draft.ns (env.hash data) with
      | some existing => exact ht.later
      | none => exact ht.append rfl rfl rfl rfl
  | supersede resourceId u blob now =>
    have hstep : m.step env backend (.supersede resourceId u blob now) =
      ⟨(m.step env backend (.supersede resourceId u blob now)).store,m.calls+1⟩ := rfl
    rcases supersede_cases ht hnone with ⟨-,hstore⟩ |
      ⟨current,successor,data,hhead,hstore,hid,hlineage,hready,hlive,-⟩
    · rw [hstep,hstore]
      exact ht.later
    · obtain ⟨hcurrent,hnone⟩ := ht.of_headOf hhead
      rw [hstep,hstore]
      exact ht.supersede hcurrent hnone hid hlineage hready hlive now

theorem tidy_init : init.Tidy := by
  constructor <;> simp [init,Store.empty]

variable (env backend)

/-- A run persists by content exactly if each call decides well. -/
theorem persists_by_content_iff (env : Env) (backend : Backend) (hash : Function.Injective env.hash)
    (calls : List Call) (hnone : ∀ call ∈ calls, call.NoChecksum) :
    Admissible (step env backend) (Machine.Right env backend) .init calls ↔
      Admissible (step env backend) (fun m call => m.decidesWell env call = true) .init calls := by
  refine admissible_congr (I := fun m : Machine => m.Tidy ∧ ∀ a ∈ m.store.resources,
    m.store.Faithful env a) (fun m call hcall hm => right_iff hm.1 hash hm.2 hcall)
    (fun m call hcall hm hright => ⟨hm.1.step hcall,hright.1⟩) hnone ⟨tidy_init,?_⟩
  simp [init,Store.empty]

def replaced : List Call := [.persist textDraft (some [65]) 0,.supersede 0 unchanged (some [66]) 1]

/-- The new revision has the new bytes and the hash of the old ones. -/
theorem old_hash_kept : (∀ call ∈ replaced, call.NoChecksum) ∧
    ¬Admissible (step plainEnv .memory) (Machine.Right plainEnv .memory) .init replaced := by
  refine ⟨by simp [replaced,Call.NoChecksum,textDraft,unchanged],?_⟩
  rintro ⟨-,⟨hfaithful,-⟩,-⟩
  have hstale : ∃ r ∈ (exec (step plainEnv .memory) .init replaced).store.resources,
    r.location = .blob 0 ∧
      (exec (step plainEnv .memory) .init replaced).store.blob? r.id 0 = some [66] ∧
      r.checksum = some "A" := by
    decide
  obtain ⟨r,hr,hlocation,hbytes,hchecksum⟩ := hstale
  obtain ⟨data,hdata,hhash⟩ := hfaithful r hr 0 hlocation
  obtain rfl : [66] = data := some.inj (hbytes.symm.trans hdata)
  rw [hchecksum] at hhash
  exact absurd hhash (by decide)

def mergedLast : Backend := .lance (fun _ _ => 0) fun _ _ => 0

/-- A text is persisted twice, another one in between, and the first is then superseded without new bytes. -/
def persistedTwice : List Call :=
  [.persist textDraft (some [65]) 0,.persist textDraft (some [66]) 1,.persist textDraft (some [65]) 2,
    .supersede 0 unchanged none 3]

/-- The second time is answered with the row of the first. -/
theorem persisted_once :
    (exec (step plainEnv mergedLast) .init (persistedTwice.take 3)).store.resources.map (·.id) = [0,
    1] ∧
    Admissible (step plainEnv mergedLast) (Machine.Right plainEnv mergedLast) .init persistedTwice :=
  ⟨by decide,(persists_by_content_iff plainEnv mergedLast plainEnv_hash_injective _
    (by simp [persistedTwice,Call.NoChecksum,textDraft,unchanged])).mpr (by decide)⟩
end Hirn.Resources
