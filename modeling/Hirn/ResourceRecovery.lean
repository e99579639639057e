import Hirn.ResourceResults

/-! Recovery after a crash within a supersession. The two reconcilers of the start run side by side on
the store that the crash has left, in whatever order their calls fall. -/
namespace Hirn.Resources
open Engine Calls Runs List
variable {r : ResourceObject} {at' : Timestamp}

/-- The state of an envelope says which of its two revisions is the later one. -/
def Store.Agrees (s : Store) (e : MutationEnvelopeRecord) : Prop :=
  match e.payload, e.state with
  | _, .pending => False
  | .headTransition currentId successorId _, .applied =>
    (∃ r ∈ s.resources, r.id = currentId ∧ r.supersededBy = some successorId) ∧
      ∃ r ∈ s.resources, r.id = successorId ∧ r.storageReady = true
  | .headTransition currentId successorId _, .failed =>
    (∀ r ∈ s.resources, r.id = currentId → r.supersededBy ≠ some successorId) ∧
      ∀ r ∈ s.resources, r.id = successorId → r.storageReady = false
  | .payloadPurge .., _ => True

/-- Each lineage has one head, and every envelope is done with and agrees. -/
structure Store.Settled (s : Store) : Prop where
  heads : s.Headed
  agrees : ∀ e ∈ s.envelopes, s.Agrees e

structure Store.Quiet (s : Store) : Prop extends s.Settled where
  nodup : (s.resources.map (·.id)).Nodup
  nodupEnvelopes : (s.envelopes.map (·.id)).Nodup
  ready : ∀ r ∈ s.resources, r.storageReady = true

variable {e : MutationEnvelopeRecord} {s : Store}

theorem Store.Quiet.not_pending (h : s.Quiet) (he : e ∈ s.envelopes) : e.state ≠ .pending := by
  intro hstate
  have hagrees := h.agrees e he
  unfold Store.Agrees at hagrees
  rw [hstate] at hagrees
  exact hagrees

def EnvelopePayload.Mentions (id : ResourceId) : EnvelopePayload → Prop
  | .headTransition currentId successorId _ => id = currentId ∨ id = successorId
  | .payloadPurge _ governedHeadId => id = governedHeadId

structure Store.Fresh (s : Store) (id : ResourceId) : Prop where
  resources : ∀ r ∈ s.resources, r.id ≠ id
  blobs : ∀ b ∈ s.blobs, b.resourceId ≠ id
  envelopes : ∀ e ∈ s.envelopes, e.id ≠ .resourceHead id ∧ ¬e.payload.Mentions id

def Store.live (s : Store) : Set ResourceObject :=
  {r | r ∈ s.resources ∧ r.storageReady = true ∧ r.supersededBy = none}

def startup (now : Timestamp) : ℕ → Unit → Prog StoreOp Store (Except HirnDbError ℕ)
  | 0, _ => (reconcileResourceHeadMutations now).run
  | 1, _ => reconcilePendingResourceBlobStaging.run
  | _, _ => .done (.ok 0)

variable (backend : Backend) (now : Timestamp)

/-- Both reconcilers have run, their calls in some order, and have left `u`. -/
def Recovers (t u : Store) : Prop :=
  ∃ (schedule : List ℕ) (a b : Except HirnDbError ℕ),
    exec (Pool.step (effect backend) (startup now)) ⟨t,[]⟩
      (.start ()::.start ()::schedule.map fun c => .step c true) =
      ⟨u,[((),some (.done a)),((),some (.done b))]⟩

def Confluent (t : Store) : Prop := ∃ heads, ∀ u, Recovers backend now t u → u.Settled ∧ u.live = heads

def Store.hasStoredStaging (s : Store) : Bool :=
  s.resources.any fun r => !r.storageReady && (s.bytes? r).isSome

def Healthy (_ : Store) (_ : StoreOp) (succeeds : Bool) : Prop := succeeds = true

variable {backend now} {A I P : Store → Prop} {α β : Type} {t u : Store} {c : ℕ} {o : StoreOp}
  {G : ℕ → Store → Store → Prop} {Q : Except HirnDbError β → Store → Prop}

section

/-- A condition for each of the two reconcilers; there are no other calls. -/
def ofCall (P Q : Store → Prop) : ℕ → Store → Prop
  | 0 => P
  | 1 => Q
  | _ => fun _ => True

theorem stable_ofCall {Q : Store → Prop} (hP : Stable I G 0 P) (hQ : Stable I G 1 Q) (c : ℕ) :
    Stable I G c (ofCall P Q c) := by
  rcases c with _ | _ | c
  · exact hP
  · exact hQ
  · exact fun _ _ _ _ _ _ _ => trivial

/-- What two safe reconcilers have established holds when both are done. -/
theorem Recovers.established {Q B : Store → Prop} (h : Recovers backend now t u) (ht : I t) (hA : A t)
    (hB : B t) (hP : Stable I G 0 P) (hQ : Stable I G 1 Q) (hAs : Stable I G 0 A)
    (hBs : Stable I G 1 B) (hheads : ∀ s, I s → A s →
      Safe (effect backend) Healthy I G 0 (fun _ => P) (reconcileResourceHeadMutations now).run s)
    (hstaging : ∀ s, I s → B s →
      Safe (effect backend) Healthy I G 1 (fun _ => Q) reconcilePendingResourceBlobStaging.run s) :
    I u ∧ P u ∧ Q u := by
  obtain ⟨schedule,a,b,hexec⟩ := h
  have hmeets : Admissible (Pool.step (effect backend) (startup now)) (Meets fun _ _ => Healthy)
      ⟨t,[]⟩ (.start ()::.start ()::schedule.map fun c => .step c true) := by
    refine admissible_of_forall fun e he p => ?_
    simp only [mem_cons,mem_map] at he
    rcases he with rfl | rfl | ⟨c,-,rfl⟩
    · trivial
    · trivial
    · exact fun _ _ => rfl
  have hsound : Sound (effect backend) (fun _ _ => Healthy) I G (fun c _ _ => ofCall P Q c)
      (ofCall A B) (startup now) := by
    refine ⟨fun c _ _ => stable_ofCall hP hQ c,stable_ofCall hAs hBs,fun c _ s hs hstart => ?_⟩
    rcases c with _ | _ | c
    · exact hheads s hs hstart
    · exact hstaging s hs hstart
    · trivial
  have hstart : ∀ c, ofCall A B c t := by
    rintro (_ | _ | c)
    · exact hA
    · exact hB
    · trivial
  have hrunning := running_exec hsound (running_nil ht hstart) hmeets
  rw [hexec] at hrunning
  exact ⟨hrunning.holds,hrunning.tasks 0 () _ rfl,hrunning.tasks 1 () _ rfl⟩

variable (A)

theorem healthy_scan_bind (hs : A s) (hstable : Stable I G c A)
    (hself : ∀ t, G c t t) (hnext : ∀ t, I t → A t →
    Safe (effect backend) Healthy I G c Q (g (f t)).run t) :
    Safe (effect backend) Healthy I G c Q (scan f >>= g).run s :=
  safe_scan_bind A hs hstable hself (fun t hI hA _ => hnext t hI hA) fun _ _ _ hfails =>
    absurd hfails Bool.false_ne_true

theorem healthy_write_bind (hs : A s) (hstable : Stable I G c A)
    (hnext : ∀ t, I t → A t → I (effect backend o t) ∧ G c t (effect backend o t) ∧
      Safe (effect backend) Healthy I G c Q (g ()).run (effect backend o t)) :
    Safe (effect backend) Healthy I G c Q (write o >>= g).run s :=
  safe_write_bind A hs hstable (fun t hI hA _ => hnext t hI hA) fun _ _ _ hfails =>
  absurd hfails Bool.false_ne_true
end

structure Store.Idle (s : Store) : Prop where
  heads : s.pendingEnvelopes EnvelopePayload.isHeadTransition = []
  purges : s.pendingEnvelopes EnvelopePayload.isPayloadPurge = []
  staging : s.resources.filter (fun r => ¬r.storageReady) = []

theorem stable_true : Stable I G c fun _ => True :=
  fun _ _ _ _ _ _ _ => trivial

theorem recovers_of_idle (hidle : t.Idle) (h : Recovers backend now t u) : u = t := by
  refine (h.established (I := (· = t)) (G := fun _ s s' => s' = s) (P := fun _ => True)
    (Q := fun _ => True) rfl
    trivial trivial stable_true stable_true stable_true stable_true (fun s _ hs => ?_) fun s _ hs =>
    ?_).1
  · refine healthy_scan_bind _ hs stable_true (fun _ => rfl) fun v hv _ => ?_
    rw [hv,hidle.heads,reconcileEach,pure_bind,reconcileResourcePayloadPurges,bind_assoc]
    refine healthy_scan_bind _ hs stable_true (fun _ => rfl) fun v hv _ => ?_
    rw [hv,hidle.purges]
    trivial
  · refine healthy_scan_bind _ hs stable_true (fun _ => rfl) fun v hv _ => ?_
    rw [hv,hidle.staging]
    trivial

variable {data : Option Bytes} {row : Option ResourceObject} {envelope : MutationEnvelopeRecord}
    {d : Bytes}
  {current head successor : ResourceObject}

theorem exists_of_isBlob {location : ResourceLocation} (h : location.isBlob) :
    ∃ i, location = .blob i := by
  cases location with
  | blob i => exact ⟨i,rfl⟩
  | inline => cases h
  | external uri => cases h

theorem filter_eq_singleton {p : α → Bool} {xs : List α} {x : α} (hnodup : xs.Nodup) (hx : x ∈ xs)
    (hp : p x) (honly : ∀ y ∈ xs, p y → y = x) : xs.filter p = [x] := by
  have hmem : x ∈ xs.filter p := mem_filter.mpr ⟨hx,hp⟩
  have hall : ∀ y ∈ xs.filter p, y = x := fun y hy => honly y (mem_filter.mp hy).1 (mem_filter.mp hy).2
  have hdistinct := hnodup.filter p
  cases hfilter : xs.filter p with
  | nil => rw [hfilter] at hmem; cases hmem
  | cons a rest =>
    rw [hfilter] at hall hdistinct
    obtain rfl := hall a mem_cons_self
    cases rest with
    | nil => rfl
    | cons b rest =>
      have hb := hall b (mem_cons_of_mem _ mem_cons_self)
      exact absurd (hb ▸ mem_cons_self) (nodup_cons.mp hdistinct).1

/-- A head of a quiet store and the successor that it is to give way to. -/
structure Setting (s : Store) (current successor : ResourceObject) : Prop where
  quiet : s.Quiet
  stored : current ∈ s.resources
  live : current.supersededBy = none
  fresh : s.Fresh successor.id
  lineage : successor.logicalResourceId = current.logicalResourceId
  ready : successor.storageReady = true
  successorLive : successor.supersededBy = none
  born : 0 ≤ successor.createdAt

/-- Only head, successor, its bytes and the envelope may differ from `s`. -/
structure Shape (s : Store) (current successor : ResourceObject) (row : Option ResourceObject)
    (head : ResourceObject)
    (envelope : MutationEnvelopeRecord) (data : Option Bytes) (u : Store) : Prop where
  nodup : (u.resources.map (·.id)).Nodup
  nodupEnvelopes : (u.envelopes.map (·.id)).Nodup
  resources : ∀ r, r ∈ u.resources ↔ r = head ∨ row = some r ∨ r ∈ s.resources ∧ r.id ≠ current.id
  envelopes : ∀ e, e ∈ u.envelopes ↔ e = envelope ∨ e ∈ s.envelopes
  bytes : u.bytes? successor = data
  headId : head.id = current.id
  headLineage : head.logicalResourceId = current.logicalResourceId
  headReady : head.storageReady = true
  rowId : ∀ r, row = some r → r.id = successor.id
  envelopeId : envelope.id = .resourceHead successor.id
  payload : envelope.payload = .headTransition current.id successor.id successor.createdAt

namespace Setting

theorem current_ne (hs : Setting s current successor) : current.id ≠ successor.id :=
  hs.fresh.resources current hs.stored

theorem currentReady (hs : Setting s current successor) : current.storageReady :=
  hs.quiet.ready current hs.stored
end Setting
namespace Shape
section
variable (hs : Setting s current successor) (h : Shape s current successor row head envelope data u)
include h

theorem head_mem : head ∈ u.resources := (h.resources head).mpr (.inl rfl)
theorem row_mem (hr : row = some r) : r ∈ u.resources := (h.resources r).mpr (.inr (.inl hr))

theorem raw_current : u.resourceRaw current.id = some head :=
  (Store.resourceRaw_eq_some h.nodup).mpr ⟨h.head_mem,h.headId,h.headReady⟩

include hs in
theorem raw_successor : u.resourceRaw successor.id = row.filter (·.storageReady) := by
  ext r
  rw [Store.resourceRaw_eq_some h.nodup,Option.filter_eq_some_iff,h.resources]
  constructor
  · rintro ⟨rfl | hrow | ⟨hold,-⟩,hid,hready⟩
    · exact absurd (h.headId.symm.trans hid) hs.current_ne
    · exact ⟨hrow,hready⟩
    · exact absurd hid (hs.fresh.resources r hold)
  · rintro ⟨hrow,hready⟩
    exact ⟨.inr (.inl hrow),h.rowId r hrow,hready⟩

theorem envelope? : u.envelope? (.resourceHead successor.id) = some envelope :=
  (find?_key_eq_some h.nodupEnvelopes).mpr ⟨(h.envelopes envelope).mpr (.inl rfl),h.envelopeId⟩

include hs in
theorem pending_heads :
    u.pendingEnvelopes EnvelopePayload.isHeadTransition = if envelope.state = .pending then
    [envelope] else [] := by
  unfold Store.pendingEnvelopes
  have honly : ∀ e ∈ u.envelopes, e.state = .pending → e = envelope := by
    intro e he hstate
    exact ((h.envelopes e).mp he).resolve_right fun hold => hs.quiet.not_pending hold hstate
  split
  next hstate =>
    rw [filter_eq_singleton (x := envelope) h.nodupEnvelopes.of_map
      ((h.envelopes envelope).mpr (.inl rfl))]
    · rfl
    · simp [hstate,h.payload,EnvelopePayload.isHeadTransition]
    · intro e he hsel
      rw [decide_eq_true_eq] at hsel
      exact honly e he hsel.2
  next hstate =>
    rw [filter_eq_nil_iff.mpr]
    · rfl
    · intro e he hsel
      rw [decide_eq_true_eq] at hsel
      exact hstate (honly e he hsel.2 ▸ hsel.2)

include hs in
theorem pending_purges : u.pendingEnvelopes EnvelopePayload.isPayloadPurge = [] := by
  unfold Store.pendingEnvelopes
  rw [filter_eq_nil_iff.mpr]
  · rfl
  · intro e he hsel
    rw [decide_eq_true_eq] at hsel
    rcases (h.envelopes e).mp he with rfl | hold
    · rw [h.payload] at hsel
      exact absurd hsel.1 Bool.false_ne_true
    · exact hs.quiet.not_pending hold hsel.2

include hs in
theorem staging : u.resources.filter (fun r => ¬r.storageReady) =
    (row.filter fun r => ¬r.storageReady).toList := by
  have honly : ∀ r ∈ u.resources, r.storageReady = false → row = some r := by
    intro r hr hready
    rcases (h.resources r).mp hr with rfl | hrow | ⟨hold,-⟩
    · exact absurd (h.headReady.symm.trans hready) (by simp)
    · exact hrow
    · exact absurd ((hs.quiet.ready r hold).symm.trans hready) (by simp)
  cases hfilter : row.filter fun r => ¬r.storageReady with
  | none =>
    rw [Option.toList_none,filter_eq_nil_iff]
    intro r hr hsel
    have hready : r.storageReady = false := by simpa using hsel
    rw [honly r hr hready] at hfilter
    simp [hready] at hfilter
  | some r =>
    obtain ⟨hrow,hready⟩ := Option.filter_eq_some_iff.mp hfilter
    refine filter_eq_singleton h.nodup.of_map (h.row_mem hrow) hready fun a ha hsel => ?_
    have hsame := honly a ha (by simpa using hsel)
    exact Option.some.inj (hsame.symm.trans hrow)
end
section
variable (backend) (hs : Setting s current successor)
include hs

variable (h : Shape s current successor row head envelope data u)
include h

theorem mergeHead (hid : r.id = current.id)
    (hlineage : r.logicalResourceId = current.logicalResourceId)
    (hready : r.storageReady) : Shape s current successor row r envelope data
    (effect backend (.mergeResource r) u) :=
  {h with
    nodup := nodup_mergeInsert h.nodup
    resources := fun a => by
      rw [effect,mem_mergeInsert,h.resources a,hid]
      constructor
      · rintro (rfl | ⟨rfl | hrow | hold,hne⟩)
        · exact .inl rfl
        · exact absurd h.headId hne
        · exact .inr (.inl hrow)
        · exact .inr (.inr hold)
      · rintro (rfl | hrow | hold)
        · exact .inl rfl
        · exact .inr ⟨.inr (.inl hrow),h.rowId a hrow ▸ hs.current_ne.symm⟩
        · exact .inr ⟨.inr (.inr hold),hold.2⟩
    headId := hid
    headLineage := hlineage
    headReady := hready}

theorem mergeRow (hid : r.id = successor.id) :
    Shape s current successor (some r) head envelope data (effect backend (.mergeResource r) u) :=
  {h with
    nodup := nodup_mergeInsert h.nodup
    resources := fun a => by
      rw [effect,mem_mergeInsert,h.resources a,hid]
      constructor
      · rintro (rfl | ⟨rfl | hrow | hold,hne⟩)
        · exact .inr (.inl rfl)
        · exact .inl rfl
        · exact absurd (h.rowId a hrow) hne
        · exact .inr (.inr hold)
      · rintro (rfl | hrow | hold)
        · exact .inr ⟨.inl rfl,h.headId ▸ hs.current_ne⟩
        · exact .inl (Option.some.inj hrow).symm
        · exact .inr ⟨.inr (.inr hold),hs.fresh.resources a hold.1⟩
    rowId := fun a ha => Option.some.inj ha ▸ hid}

theorem deleteRow :
    Shape s current successor none head envelope data
    (effect backend (.deleteResource successor.id) u) :=
  {h with
    nodup := h.nodup.sublist (filter_sublist.map _)
    resources := fun a => by
      simp only [effect,mem_filter,h.resources a,decide_eq_true_eq]
      constructor
      · rintro ⟨rfl | hrow | hold,hne⟩
        · exact .inl rfl
        · exact absurd (h.rowId a hrow) hne
        · exact .inr (.inr hold)
      · rintro (rfl | hrow | hold)
        · exact ⟨.inl rfl,h.headId ▸ hs.current_ne⟩
        · cases hrow
        · exact ⟨.inr (.inr hold),hs.fresh.resources a hold.1⟩
    rowId := fun a ha => nomatch ha}

theorem mergeEnvelope (hid : e.id = .resourceHead successor.id)
    (hpayload : e.payload = .headTransition current.id successor.id successor.createdAt) :
    Shape s current successor row head e data (effect backend (.mergeEnvelope e) u) :=
  {h with
    nodupEnvelopes := nodup_mergeInsert h.nodupEnvelopes
    envelopes := fun f => by
      rw [effect,mem_mergeInsert,h.envelopes f,hid]
      constructor
      · rintro (rfl | ⟨rfl | hold,hne⟩)
        · exact .inl rfl
        · exact absurd h.envelopeId hne
        · exact .inr hold
      · rintro (rfl | hold)
        · exact .inl rfl
        · exact .inr ⟨.inr hold,(hs.fresh.envelopes f hold).1⟩
    envelopeId := hid
    payload := hpayload}

omit h

/-- The envelope has been appended to the store. -/
theorem begun (at' : Timestamp) :
    Shape s current successor none current
    (buildResourceHeadTransitionEnvelope at' current successor) none
      (effect backend (.appendEnvelope (buildResourceHeadTransitionEnvelope at' current
      successor)) s) where
  nodup := hs.quiet.nodup
  nodupEnvelopes := by
    rw [effect,map_append,nodup_append]
    refine ⟨hs.quiet.nodupEnvelopes,by simp,fun a ha b hb => ?_⟩
    obtain ⟨e,he,rfl⟩ := mem_map.mp ha
    rw [map_singleton,mem_singleton] at hb
    exact hb ▸ (hs.fresh.envelopes e he).1
  resources r := by
    constructor
    · intro hr
      by_cases hid : r.id = current.id
      · exact .inl (inj_on_of_nodup_map hs.quiet.nodup hr hs.stored hid)
      · exact .inr (.inr ⟨hr,hid⟩)
    · rintro (rfl | hrow | hold)
      · exact hs.stored
      · cases hrow
      · exact hold.1
  envelopes e := by simp [effect,or_comm]
  bytes := by
    unfold Store.bytes?
    split
    · rw [Store.blob?,find?_eq_none.mpr,Option.map_none]
      intro b hb
      simp [hs.fresh.blobs b hb]
    · rfl
  headId := rfl
  headLineage := rfl
  headReady := hs.currentReady
  rowId a ha := nomatch ha
  envelopeId := rfl
  payload := rfl

theorem appendRow (h : Shape s current successor none head envelope data u)
    (hid : r.id = successor.id) :
    Shape s current successor (some r) head envelope data (effect backend (.appendResource r) u) :=
  {h with
    nodup := by
      refine nodup_append_resource h.nodup fun a ha => ?_
      rcases (h.resources a).mp ha with rfl | hrow | hold
      · rw [h.headId,hid]
        exact hs.current_ne
      · cases hrow
      · rw [hid]
        exact hs.fresh.resources a hold.1
    resources := fun a => by
      rw [effect,mem_append,mem_singleton,h.resources a]
      simp only [Option.some.injEq]
      tauto
    rowId := fun a ha => Option.some.inj ha ▸ hid}

omit hs in
theorem appendBlob (h : Shape s current successor row head envelope none u)
    (hlocation : successor.location = .blob blobIndex) :
    Shape s current successor row head envelope (some d)
    (effect backend (.appendBlob ⟨successor.id,blobIndex,d⟩) u) :=
  {h with
    bytes := by
      have hnone := h.bytes
      simp only [Store.bytes?,hlocation,Store.blob?,Option.map_eq_none_iff] at hnone ⊢
      rw [effect,find?_append,hnone]
      simp}
end
end Shape
section

theorem Store.Agrees.congr (h : ∀ r, r ∈ u.resources ↔ r ∈ s.resources) (he : s.Agrees e) :
    u.Agrees e := by
  unfold Store.Agrees at he ⊢
  simpa only [h] using he

variable (hs : Setting s current successor)
include hs

theorem settled_of_kept
    (h : Shape s current successor none current envelope data u)
    (hstate : envelope.state = .failed) : u.Settled ∧ u.live = s.live := by
  have hsame : ∀ r, r ∈ u.resources ↔ r ∈ s.resources := by
    intro r
    rw [h.resources r]
    constructor
    · rintro (rfl | hrow | hold)
      · exact hs.stored
      · cases hrow
      · exact hold.1
    · intro hr
      by_cases hid : r.id = current.id
      · exact .inl (inj_on_of_nodup_map hs.quiet.nodup hr hs.stored hid)
      · exact .inr (.inr ⟨hr,hid⟩)
  refine ⟨⟨⟨?_,?_⟩,fun e he => ?_⟩,?_⟩
  · simpa only [hsame] using hs.quiet.heads.headed
  · simpa only [hsame] using hs.quiet.heads.single
  · rcases (h.envelopes e).mp he with rfl | hold
    · rw [Store.Agrees,h.payload,hstate]
      refine ⟨fun r hr hid => ?_,fun r hr hid => absurd hid (hs.fresh.resources r ((hsame r).mp hr))⟩
      rw [inj_on_of_nodup_map hs.quiet.nodup ((hsame r).mp hr) hs.stored hid,hs.live]
      simp
    · exact (hs.quiet.agrees e hold).congr hsame
  · simp [Store.live,hsame]

section
variable (h : Shape s current successor (some successor) head envelope data u)
include h

theorem agrees_superseded (hhead : head.supersededBy = some successor.id) (he : e ∈ s.envelopes) :
    u.Agrees e := by
  have hagrees := hs.quiet.agrees e he
  have hfresh := (hs.fresh.envelopes e he).2
  unfold Store.Agrees at hagrees ⊢
  split at hagrees
  · exact hagrees
  next currentId successorId _ _ _ =>
    obtain ⟨⟨r,hr,hid,hby⟩,⟨a,ha,hida,hready⟩⟩ := hagrees
    refine ⟨⟨r,(h.resources r).mpr (.inr (.inr ⟨hr,fun hsame => ?_⟩)),hid,hby⟩,?_⟩
    · rw [inj_on_of_nodup_map hs.quiet.nodup hr hs.stored hsame,hs.live] at hby
      cases hby
    · by_cases hsame : a.id = current.id
      · exact ⟨head,h.head_mem,h.headId.trans (hsame.symm.trans hida),h.headReady⟩
      · exact ⟨a,(h.resources a).mpr (.inr (.inr ⟨ha,hsame⟩)),hida,hready⟩
  next currentId successorId _ hpayload _ =>
    obtain ⟨hnot,hunready⟩ := hagrees
    rw [hpayload] at hfresh
    obtain ⟨-,hother⟩ := not_or.mp hfresh
    refine ⟨fun r hr hid => ?_,fun r hr hid => ?_⟩
    · rcases (h.resources r).mp hr with rfl | hrow | hold
      · rw [hhead]
        simpa using hother
      · rw [← Option.some.inj hrow,hs.successorLive]
        simp
      · exact hnot r hold.1 hid
    · rcases (h.resources r).mp hr with rfl | hrow | hold
      · have := hunready current hs.stored (h.headId.symm.trans hid)
        rw [hs.currentReady] at this
        cases this
      · exact absurd (Option.some.inj hrow ▸ hid) hother
      · exact hunready r hold.1 hid
  · trivial

/-- The successor has won, and the envelope is applied. -/
theorem settled_of_superseded (hhead : head.supersededBy = some successor.id)
    (hstate : envelope.state = .applied) :
    u.Settled ∧ u.live = {r | r = successor ∨ r ∈ s.live ∧ r.id ≠ current.id} := by
  have hlive : ∀ r, r ∈ u.resources → r.storageReady → r.supersededBy = none →
      r = successor ∨ r ∈ s.live ∧ r.id ≠ current.id := by
    intro r hr hready hnone
    rcases (h.resources r).mp hr with rfl | hrow | hold
    · rw [hhead] at hnone
      cases hnone
    · exact .inl (Option.some.inj hrow).symm
    · exact .inr ⟨⟨hold.1,hready,hnone⟩,hold.2⟩
  have hsuccessor : successor ∈ u.resources := h.row_mem rfl
  -- an old head that is left is of another lineage
  have hother : ∀ r, r ∈ s.live → r.id ≠ current.id →
    r.logicalResourceId ≠ current.logicalResourceId := by
    rintro r ⟨hr,hready,hnone⟩ hne hsame
    exact hne (congrArg ResourceObject.id
      (hs.quiet.heads.single r hr current hs.stored hsame hready hs.currentReady hnone hs.live))
  refine ⟨⟨⟨fun r hr hready => ?_,fun a ha b hb hsame hra hrb hla hlb => ?_⟩,fun e he => ?_⟩,?_⟩
  · by_cases hsame : r.logicalResourceId = current.logicalResourceId
    · exact ⟨successor,hsuccessor,hs.lineage.trans hsame.symm,hs.ready,hs.successorLive⟩
    · have hold : r ∈ s.resources := by
        rcases (h.resources r).mp hr with rfl | hrow | hold
        · exact absurd h.headLineage hsame
        · exact absurd (Option.some.inj hrow ▸ hs.lineage) hsame
        · exact hold.1
      obtain ⟨g,hg,hlineage,hready,hnone⟩ := hs.quiet.heads.headed r hold hready
      refine ⟨g,(h.resources g).mpr (.inr (.inr ⟨hg,fun hid => hsame ?_⟩)),hlineage,hready,hnone⟩
      rw [← hlineage,inj_on_of_nodup_map hs.quiet.nodup hg hs.stored hid]
  · rcases hlive a ha hra hla with rfl | ⟨hlivea,hnea⟩ <;> rcases hlive b hb hrb
      hlb with rfl | ⟨hliveb,hneb⟩
    · rfl
    · exact absurd (hsame.symm.trans hs.lineage) (hother b hliveb hneb)
    · exact absurd (hsame.trans hs.lineage) (hother a hlivea hnea)
    · exact hs.quiet.heads.single a hlivea.1 b hliveb.1 hsame hra hrb hla hlb
  · rcases (h.envelopes e).mp he with rfl | hold
    · rw [Store.Agrees,h.payload,hstate]
      exact ⟨⟨head,h.head_mem,h.headId,hhead⟩,successor,hsuccessor,rfl,hs.ready⟩
    · exact agrees_superseded hs h hhead hold
  · ext r
    constructor
    · rintro ⟨hr,hready,hnone⟩
      exact hlive r hr hready hnone
    · rintro (rfl | ⟨⟨hr,hready,hnone⟩,hne⟩)
      · exact ⟨hsuccessor,hs.ready,hs.successorLive⟩
      · exact ⟨(h.resources r).mpr (.inr (.inr ⟨hr,hne⟩)),hready,hnone⟩
end

theorem not_settled_of_both (h : Shape s current successor (some successor) current envelope data
    u) : ¬u.Settled := by
  intro hsettled
  have hsame := hsettled.heads.single current h.head_mem successor (h.row_mem rfl) hs.lineage.symm
    hs.currentReady hs.ready hs.live hs.successorLive
  exact hs.current_ne (congrArg ResourceObject.id hsame)
end
variable {next : Unit → Act β}

theorem healthy_update_bind {id : EnvelopeId}
    (A : Store → Prop) (B : MutationEnvelopeRecord → Prop) (hs : A s) (hstable : Stable I G c A)
    (hself : ∀ t, G c t t) (hfound : ∀ t, I t → A t → ∃ e, t.envelope? id = some e ∧ B e)
    (hnext : ∀ e g t, B e → g.id = e.id → g.payload = e.payload → g.state = state → I t → A t →
      I (effect backend (.mergeEnvelope g) t) ∧ G c t (effect backend (.mergeEnvelope g) t) ∧
      Safe (effect backend) Healthy I G c Q (next ()).run (effect backend (.mergeEnvelope g) t)) :
    Safe (effect backend) Healthy I G c Q (updateMutationEnvelopeState now id state lastError >>=
    next).run s := by
  rw [updateMutationEnvelopeState,bind_assoc]
  refine healthy_scan_bind A hs hstable hself fun t hI hA => ?_
  obtain ⟨e,he,hB⟩ := hfound t hI hA
  rw [he]
  exact healthy_write_bind A hA hstable fun v hI hA => hnext e _ v hB rfl rfl rfl hI hA

section
variable (s) (current successor) (data : Option Bytes)

/-- The head has not given way, and the successor's row is one of `rows`. -/
def Unfinished (rows : Option ResourceObject → Prop) (u : Store) : Prop :=
  ∃ row e, Shape s current successor row current e data u ∧ rows row

/-- One reconciler changes the envelope, the other the row of the successor. -/
def Divided : ℕ → Store → Store → Prop
  | 0, u, v => ∀ row e, Shape s current successor row current e data u →
    ∃ e', Shape s current successor row current e' data v
  | 1, u, v => ∀ row e, Shape s current successor row current e data u →
    ∃ row', Shape s current successor row' current e data v
  | _, u, v => v = u

def EnvelopeIs (state : MutationEnvelopeState) (u : Store) : Prop :=
  ∃ row e, Shape s current successor row current e data u ∧ e.state = state

def RowIs (row : Option ResourceObject) (u : Store) : Prop :=
  ∃ e, Shape s current successor row current e data u

variable {s current successor data} {rows : Option ResourceObject → Prop}

theorem Divided.self (c : ℕ) (u : Store) : Divided s current successor data c u u := by
  match c with
  | 0 => exact fun row e h => ⟨e,h⟩
  | 1 => exact fun row e h => ⟨row,h⟩
  | c+2 => rfl

theorem stable_envelopeIs (state : MutationEnvelopeState) :
    Stable (Unfinished s current successor data rows) (Divided s current successor data) 0
      (EnvelopeIs s current successor data state) := by
  rintro d u v hd - ⟨row,e,hshape,hstate⟩ hguar
  match d with
  | 0 => exact absurd rfl hd
  | 1 =>
    obtain ⟨row',hshape'⟩ := hguar row e hshape
    exact ⟨row',e,hshape',hstate⟩
  | d+2 => exact (show v = u from hguar) ▸ ⟨row,e,hshape,hstate⟩

theorem stable_rowIs (row : Option ResourceObject) :
    Stable (Unfinished s current successor data rows) (Divided s current successor data) 1
      (RowIs s current successor data row) := by
  rintro d u v hd - ⟨e,hshape⟩ hguar
  match d with
  | 0 => exact hguar row e hshape
  | 1 => exact absurd rfl hd
  | d+2 => exact (show v = u from hguar) ▸ ⟨e,hshape⟩

variable (hs : Setting s current successor)
include hs

section
variable (hrows : ∀ row, rows row → row.filter (·.storageReady) = none)
include hrows

theorem safe_single_unfinished (hid : e.id = .resourceHead successor.id)
    (hpayload : e.payload = .headTransition current.id successor.id successor.createdAt)
    (hu : EnvelopeIs s current successor data .pending u) :
    Safe (effect backend) Healthy (Unfinished s current successor data rows)
    (Divided s current successor data) 0
      (fun x u => x = .ok true ∧ EnvelopeIs s current successor data .failed u)
      (reconcileSingleResourceHeadTransition now e).run u := by
  rw [reconcileSingleResourceHeadTransition,hpayload]
  refine healthy_scan_bind _ hu (stable_envelopeIs .pending) (Divided.self 0) fun t ht hA => ?_
  have ⟨row,f,hshape,_⟩ := hA
  rw [hshape.raw_current]
  refine healthy_scan_bind _ hA (stable_envelopeIs .pending) (Divided.self 0) fun t ht hA => ?_
  obtain ⟨row,f,hshape,hrow⟩ := ht
  rw [hshape.raw_successor hs,hrows row hrow]
  dsimp only
  rw [if_neg (by rw [hs.live]; simp),hid]
  refine healthy_update_bind _
    (fun f => f.id = .resourceHead successor.id ∧
      f.payload = .headTransition current.id successor.id successor.createdAt)
    hA (stable_envelopeIs .pending) (Divided.self 0)
    (fun t ht hA => ?_) fun f g t hf hgid hgpayload hgstate ht hA => ?_
  · obtain ⟨row,f,hshape,-⟩ := hA
    exact ⟨f,hshape.envelope?,hshape.envelopeId,hshape.payload⟩
  · obtain ⟨row,f',hshape,hrow⟩ := ht
    have hnext : ∀ row f', Shape s current successor row current f' data t →
        Shape s current successor row current g data (effect backend (.mergeEnvelope g) t) :=
      fun row f' h => h.mergeEnvelope backend hs (hgid.trans hf.1) (hgpayload.trans hf.2)
    exact ⟨⟨row,g,hnext row f' hshape,hrow⟩,fun row f' h => ⟨g,hnext row f' h⟩,rfl,row,g,
      hnext row f' hshape,hgstate⟩

theorem safe_heads_unfinished (hu : EnvelopeIs s current successor data .pending u) :
    Safe (effect backend) Healthy (Unfinished s current successor data rows)
    (Divided s current successor data) 0
      (fun _ => EnvelopeIs s current successor data .failed)
      (reconcileResourceHeadMutations now).run u := by
  refine healthy_scan_bind _ hu (stable_envelopeIs .pending) (Divided.self 0) fun t ht hA => ?_
  have ⟨row,e,hshape,hstate⟩ := hA
  rw [hshape.pending_heads hs,if_pos hstate,reconcileEach,bind_assoc,reconcileOne,bind_assoc]
  refine safe_attempt_bind ht (safe_single_unfinished hs hrows hshape.envelopeId hshape.payload hA)
    fun x t ht hx => ?_
  obtain ⟨rfl,hA⟩ := hx
  rw [pure_bind,reconcileEach,pure_bind,pure_bind,reconcileResourcePayloadPurges,bind_assoc]
  refine healthy_scan_bind _ hA (stable_envelopeIs .failed) (Divided.self 0) fun t ht hA => ?_
  have ⟨row,e,hshape,_⟩ := hA
  rw [hshape.pending_purges hs]
  exact hA
end
section
variable (hrow : row = none ∨ row = some successor.staged ∧ successor.location.isBlob)
include hrow

/-- The other one deletes the row that has no bytes. -/
theorem safe_staging_unfinished
    (hrows : ∀ row, rows row ↔ row = none ∨ row = some successor.staged)
    (hu : RowIs s current successor none row u) :
    Safe (effect backend) Healthy (Unfinished s current successor none rows)
    (Divided s current successor none) 1
      (fun _ => RowIs s current successor none none) reconcilePendingResourceBlobStaging.run u := by
  refine healthy_scan_bind _ hu (stable_rowIs row) (Divided.self 1) fun t ht hA => ?_
  obtain ⟨e,hshape⟩ := hA
  rw [hshape.staging hs]
  rcases hrow with rfl | ⟨rfl,hblob⟩
  · exact ⟨e,hshape⟩
  · have hstaged : (some successor.staged).filter (fun r => ¬r.storageReady) =
      some successor.staged := rfl
    obtain ⟨i,hlocation⟩ : ∃ i, successor.staged.location = .blob i := exists_of_isBlob hblob
    rw [hstaged,Option.toList_some,reconcileStagedEach,reconcileStaged,hlocation]
    rw [bind_assoc]
    refine safe_attempt_bind (R := fun x t => (∃ e, x = .error e) ∧ RowIs s current successor none
      (some successor.staged) t) ht ?_ fun x t ht hx => ?_
    · refine healthy_scan_bind _ ⟨e,hshape⟩ (stable_rowIs _) (Divided.self 1) fun t ht hA => ?_
      obtain ⟨e,hshape⟩ := hA
      have hnone : t.blob? successor.staged.id i = none := by
        have hbytes := hshape.bytes
        rwa [Store.bytes?,show successor.location = .blob i from hlocation] at hbytes
      rw [hnone]
      exact ⟨⟨_,rfl⟩,e,hshape⟩
    · obtain ⟨⟨e,rfl⟩,hA⟩ := hx
      rw [bind_assoc]
      refine safe_attempt_bind (R := fun x t => x = .ok () ∧ RowIs s current successor none none t)
        ht (safe_write _ hA (stable_rowIs _) (fun t ht hA _ => ?_) fun _ _ _ hfails =>
          absurd hfails Bool.false_ne_true) fun x t ht hx => ?_
      · obtain ⟨e,hshape⟩ := hA
        have hnext : ∀ row e, Shape s current successor row current e none t →
            Shape s current successor none current e none
            (effect backend (.deleteResource successor.staged.id) t) :=
          fun row e h => h.deleteRow backend hs
        exact ⟨⟨none,e,hnext _ e hshape,(hrows none).mpr (.inl rfl)⟩,fun row e h =>
          ⟨none,hnext row e h⟩,rfl,e,hnext _ e hshape⟩
      · obtain ⟨rfl,hA⟩ := hx
        exact hA

theorem recovers_of_unfinished (h : Shape s current successor row current e none t)
    (hstate : e.state = .pending) (hrecovers : Recovers backend now t u) :
    ∃ e', Shape s current successor none current e' none u ∧ e'.state = .failed := by
  let rows : Option ResourceObject → Prop := fun row => row = none ∨ row = some successor.staged
  have hunready : ∀ row, rows row → row.filter (·.storageReady) = none := by
    rintro row (rfl | rfl) <;> rfl
  obtain ⟨-,⟨row',e',hshape,hfailed⟩,e'',hgone⟩ := hrecovers.established
    (I := Unfinished s current successor none rows) ⟨row,e,h,hrow.imp_right And.left⟩ ⟨row,e,h,
    hstate⟩ ⟨e,h⟩
    (stable_envelopeIs .failed) (stable_rowIs none) (stable_envelopeIs .pending) (stable_rowIs row)
    (fun _ _ => safe_heads_unfinished hs hunready) fun _ _ => safe_staging_unfinished hs hrow
    fun _ => Iff.rfl
  obtain rfl : e' = e'' := Option.some.inj (hshape.envelope?.symm.trans hgone.envelope?)
  exact ⟨e',hgone,hfailed⟩
end
end
section
variable (s) (current successor) (data : Option Bytes)

def Visible (u : Store) : Prop := ∃ head e, Shape s current successor (some successor) head e data u

def Alone (c : ℕ) (u v : Store) : Prop := c = 0 ∨ v = u

def HeadIs (head : ResourceObject) (u : Store) : Prop :=
  ∃ e, Shape s current successor (some successor) head e data u ∧ e.state = .pending

def GivenWay (u : Store) : Prop :=
  ∃ head e, Shape s current successor (some successor) head e data u ∧
  head.supersededBy = some successor.id ∧
    e.state = .applied

variable {s current successor data}

theorem stable_alone : Stable I Alone 0 A := by
  rintro d u v hd - hA (rfl | rfl)
  · exact absurd rfl hd
  · exact hA

variable (hs : Setting s current successor)
include hs

theorem safe_apply (hhead : head.supersededBy = some successor.id)
    (hu : HeadIs s current successor data head u)
    (hnext : ∀ t, Visible s current successor data t → GivenWay s current successor data t →
      Safe (effect backend) Healthy (Visible s current successor data) Alone 0 Q (next ()).run t) :
    Safe (effect backend) Healthy (Visible s current successor data) Alone 0 Q
      (updateMutationEnvelopeState now (.resourceHead successor.id) .applied none >>= next).run u := by
  refine healthy_update_bind _
    (fun f => f.id = .resourceHead successor.id ∧
      f.payload = .headTransition current.id successor.id successor.createdAt)
    hu stable_alone (fun _ => .inl rfl) (fun t _ hA => ?_)
    fun f g t hf hgid hgpayload hgstate _ hA => ?_
  · obtain ⟨f,hshape,-⟩ := hA
    exact ⟨f,hshape.envelope?,hshape.envelopeId,hshape.payload⟩
  · obtain ⟨f',hshape,-⟩ := hA
    have hafter := hshape.mergeEnvelope backend hs (hgid.trans hf.1) (hgpayload.trans hf.2)
    exact ⟨⟨head,g,hafter⟩,.inl rfl,hnext _ ⟨head,g,hafter⟩ ⟨head,g,hafter,hhead,hgstate⟩⟩

theorem safe_single_stored (hid : e.id = .resourceHead successor.id)
    (hpayload : e.payload = .headTransition current.id successor.id successor.createdAt)
    (hu : HeadIs s current successor data head u) :
    Safe (effect backend) Healthy (Visible s current successor data) Alone 0
      (fun x u => (∃ b, x = .ok b) ∧ GivenWay s current successor data u)
      (reconcileSingleResourceHeadTransition now e).run u := by
  rw [reconcileSingleResourceHeadTransition,hpayload]
  refine healthy_scan_bind _ hu stable_alone (fun _ => .inl rfl) fun t _ hA => ?_
  have ⟨f,hshape,_⟩ := hA
  rw [hshape.raw_current]
  refine healthy_scan_bind _ hA stable_alone (fun _ => .inl rfl) fun t _ hA => ?_
  have ⟨f,hshape,_⟩ := hA
  have hseen : (some successor).filter (·.storageReady) = some successor := by simp [hs.ready]
  rw [hshape.raw_successor hs,hseen]
  dsimp only
  rw [hid]
  split
  next hhead => exact safe_apply hs hhead hA fun t _ hgiven => ⟨⟨false,rfl⟩,hgiven⟩
  · rw [if_neg (not_lt.mpr hs.born)]
    refine healthy_write_bind _ hA stable_alone fun t _ hA => ?_
    obtain ⟨f,hshape,hstate⟩ := hA
    have hafter := hshape.mergeHead backend (r := head.supersede successor.id successor.createdAt)
      hs hshape.headId hshape.headLineage hshape.headReady
    exact ⟨⟨_,f,hafter⟩,.inl rfl,safe_apply hs rfl ⟨f,hafter,hstate⟩ fun t _ hgiven =>
      ⟨⟨true,rfl⟩,hgiven⟩⟩

theorem safe_heads_stored (hu : HeadIs s current successor data head u) :
    Safe (effect backend) Healthy (Visible s current successor data) Alone 0
      (fun _ => GivenWay s current successor data) (reconcileResourceHeadMutations now).run u := by
  refine healthy_scan_bind _ hu stable_alone (fun _ => .inl rfl) fun t ht hA => ?_
  have ⟨e,hshape,hstate⟩ := hA
  rw [hshape.pending_heads hs,if_pos hstate,reconcileEach,bind_assoc,reconcileOne,bind_assoc]
  refine safe_attempt_bind ht (safe_single_stored hs hshape.envelopeId hshape.payload hA)
    fun x t ht hx => ?_
  obtain ⟨⟨b,rfl⟩,hA⟩ := hx
  rw [pure_bind,reconcileEach,pure_bind,pure_bind,reconcileResourcePayloadPurges,bind_assoc]
  refine healthy_scan_bind _ hA stable_alone (fun _ => .inl rfl) fun t ht hA => ?_
  have ⟨head,e,hshape,_⟩ := hA
  rw [hshape.pending_purges hs]
  exact hA

theorem recovers_of_stored (h : Shape s current successor (some successor) head e data t)
    (hstate : e.state = .pending)
    (hrecovers : Recovers backend now t u) : GivenWay s current successor data u := by
  refine (hrecovers.established (B := fun _ => True) (Q := fun _ => True)
    (I := Visible s current successor data)
    ⟨head,e,h⟩ ⟨e,h,hstate⟩ trivial stable_alone stable_true stable_alone stable_true
    (fun _ _ => safe_heads_stored hs) fun v _ hstart => ?_).2.1
  refine healthy_scan_bind _ hstart stable_true (fun _ => .inr rfl) fun t ht _ => ?_
  obtain ⟨head,e,hshape⟩ := ht
  have hseen : (some successor).filter (fun r => ¬r.storageReady) = none := by simp [hs.ready]
  rw [hshape.staging hs,hseen]
  trivial
end
variable (backend) in
theorem perform_staging_stored {u : Store} (hs : Setting s current successor)
    (h : Shape s current successor (some successor.staged) current e (some d) u) :
    ∃ v n, perform (effect backend) reconcilePendingResourceBlobStaging u = (.ok n,v) ∧
      Shape s current successor (some successor) current e (some d) v := by
  have hblob : ∃ i, successor.location = .blob i ∧ u.blob? successor.id i = some d := by
    have hbytes := h.bytes
    unfold Store.bytes? at hbytes
    split at hbytes
    next i hlocation => exact ⟨i,hlocation,hbytes⟩
    · cases hbytes
  obtain ⟨i,hlocation,hbytes⟩ := hblob
  have hstaging : u.resources.filter (fun r => ¬r.storageReady) = [successor.staged] := h.staging hs
  have hfinal : successor.staged.finalized = successor := ResourceObject.finalized_eq_self hs.ready
  refine ⟨effect backend (.mergeResource successor) u,1,?_,h.mergeRow backend hs rfl⟩
  have hload : perform (effect backend) (loadResourceBlobUnchecked successor.staged.id i) u =
    (.ok d,u) := by
    rw [perform_loadResourceBlobUnchecked]
    exact congrArg (fun x => (x,u)) (congrArg (Option.elim · _ _) hbytes)
  rw [reconcilePendingResourceBlobStaging,perform_bind_ok (perform_scan _),hstaging,
    reconcileStagedEach,reconcileStaged,show successor.staged.location = .blob i from hlocation]
  simp only [perform_bind,perform_attempt,hload,hfinal,upsertResourceRevision,perform_write,
    perform_pure,reconcileStagedEach]

variable (backend now) in
theorem recovers_in_turn (t : Store) : Recovers backend now t
    (perform (effect backend) reconcilePendingResourceBlobStaging
      (perform (effect backend) (reconcileResourceHeadMutations now) t).2).2 := by
  let heads := (reconcileResourceHeadMutations now).run
  let staging := reconcilePendingResourceBlobStaging.run
  obtain ⟨n,hn⟩ := exists_exec_steps (effect backend) (startup now) () heads
    ⟨t,[((),some heads),((),some staging)]⟩ 0 rfl
  obtain ⟨k,hk⟩ := exists_exec_steps (effect backend) (startup now) () staging
    ⟨(run (effect backend) heads t).2,[((),some (.done (run (effect backend) heads t).1)),
    ((),some staging)]⟩ 1 rfl
  refine ⟨List.replicate n 0++List.replicate k 1,(run (effect backend) heads t).1,
    (run (effect backend) staging (run (effect backend) heads t).2).1,?_⟩
  change exec _ (⟨t,[((),some heads),((),some staging)]⟩ : Pool Unit StoreOp Store
    (Except HirnDbError ℕ)) _ = _
  rw [map_append,map_replicate,map_replicate,exec_append,hn]
  exact hk

theorem not_confluent_of_stored_staging (hs : Setting s current successor)
    (h : Shape s current successor (some successor.staged) current e (some d) t)
    (hstate : e.state = .pending) : ¬Confluent backend now t := by
  have hunfinished : Unfinished s current successor (some d) (· = some successor.staged) t :=
    ⟨_,e,h,rfl⟩
  have hpending : EnvelopeIs s current successor (some d) .pending t := ⟨_,e,h,hstate⟩
  have hsafe : Safe (effect backend) Healthy
    (Unfinished s current successor (some d) (· = some successor.staged))
      (Divided s current successor (some d)) 0 (fun _ => EnvelopeIs s current successor (some d)
      .failed) (reconcileResourceHeadMutations now).run t :=
    safe_heads_unfinished hs (by rintro row rfl; rfl) hpending
  have hhealthy : ∀ s o, Healthy s o true := fun _ _ => rfl
  obtain ⟨⟨row,e',hshape,rfl⟩,-⟩ := hsafe.run hhealthy hunfinished
  obtain ⟨v,n,hperform,hboth⟩ := perform_staging_stored backend hs hshape
  rintro ⟨heads,hall⟩
  have hrecovers := recovers_in_turn backend now t
  have hlast : (perform (effect backend) reconcilePendingResourceBlobStaging
      (perform (effect backend) (reconcileResourceHeadMutations now) t).2).2 = v :=
      congrArg Prod.snd hperform
  rw [hlast] at hrecovers
  exact not_settled_of_both hs hboth (hall v hrecovers).1

variable {id : ResourceId} {blob : Option Bytes} {env : Env}

section
variable
  (hs : Setting s current successor)

include hs

theorem Shape.hasStoredStaging (h : Shape s current successor row head e data t) :
    t.hasStoredStaging = row.any fun r => !r.storageReady && (t.bytes? r).isSome := by
  rw [Bool.eq_iff_iff,Store.hasStoredStaging,any_eq_true,Option.any_eq_true]
  constructor
  · rintro ⟨r,hr,hsel⟩
    have hready : r.storageReady = false := by simpa using (Bool.and_eq_true_iff.mp hsel).1
    rcases (h.resources r).mp hr with rfl | hrow | ⟨hold,-⟩
    · rw [h.headReady] at hready
      cases hready
    · exact ⟨r,hrow,hsel⟩
    · rw [hs.quiet.ready r hold] at hready
      cases hready
  · rintro ⟨r,hrow,hsel⟩
    exact ⟨r,h.row_mem hrow,hsel⟩

variable (backend) in
theorem Shape.appended {u : Store} (h : Shape s current successor none head e none u)
    (data : Option Bytes) :
    ∃ data', Shape s current successor (some successor) head e data'
    (u.appended backend successor data) := by
  unfold Store.appended
  split
  next i d hlocation =>
    rw [ResourceObject.finalized_eq_self hs.ready]
    have hstaged := h.appendRow backend (r := successor.staged) hs rfl
    exact ⟨some d,(hstaged.appendBlob backend hlocation).mergeRow backend hs rfl⟩
  · exact ⟨none,h.appendRow backend hs rfl⟩

inductive Interrupted (s : Store) (current successor : ResourceObject) (t : Store) : Prop
  | unfinished (row : Option ResourceObject) (e : MutationEnvelopeRecord)
      (hrow : row = none ∨ row = some successor.staged ∧ successor.location.isBlob)
      (h : Shape s current successor row current e none t) (hstate : e.state = .pending)
  | staged (e : MutationEnvelopeRecord) (d : Bytes)
      (h : Shape s current successor (some successor.staged) current e (some d) t)
      (hstate : e.state = .pending)
  | stored (head : ResourceObject) (e : MutationEnvelopeRecord) (data : Option Bytes)
      (h : Shape s current successor (some successor) head e data t) (hstate : e.state = .pending)
  | applied (head : ResourceObject) (e : MutationEnvelopeRecord) (data : Option Bytes)
      (h : Shape s current successor (some successor) head e data t)
      (hhead : head.supersededBy = some successor.id) (hstate : e.state = .applied)

theorem Interrupted.confluent_iff (h : Interrupted s current successor t) :
    Confluent backend now t ↔ t.hasStoredStaging = false := by
  cases h with
  | unfinished row e hrow h hstate =>
    refine iff_of_true ⟨s.live,fun u hrecovers => ?_⟩ ?_
    · obtain ⟨e',hshape,hfailed⟩ := recovers_of_unfinished hs hrow h hstate hrecovers
      exact settled_of_kept hs hshape hfailed
    · rw [h.hasStoredStaging hs]
      rcases hrow with rfl | ⟨rfl,-⟩
      · rfl
      · have hbytes : t.bytes? successor.staged = none := h.bytes
        simp [hbytes]
  | staged e d h hstate =>
    refine iff_of_false (not_confluent_of_stored_staging hs h hstate) ?_
    have hbytes : t.bytes? successor.staged = some d := h.bytes
    have hready : successor.staged.storageReady = false := rfl
    rw [h.hasStoredStaging hs]
    simp [hbytes,hready]
  | stored head e data h hstate =>
    refine iff_of_true ⟨{r | r = successor ∨ r ∈ s.live ∧ r.id ≠ current.id},fun u hrecovers => ?_⟩ ?_
    · obtain ⟨head',e',hshape,hhead,happlied⟩ := recovers_of_stored hs h hstate hrecovers
      exact settled_of_superseded hs hshape hhead happlied
    · rw [h.hasStoredStaging hs]
      simp [hs.ready]
  | applied head e data h hhead hstate =>
    have hidle : t.Idle := by
      refine ⟨?_,h.pending_purges hs,?_⟩
      · rw [h.pending_heads hs,if_neg (by rw [hstate]; simp)]
      · rw [h.staging hs]
        simp [hs.ready]
    refine iff_of_true ⟨{r | r = successor ∨ r ∈ s.live ∧ r.id ≠ current.id},fun u hrecovers => ?_⟩ ?_
    · rw [recovers_of_idle hidle hrecovers]
      exact settled_of_superseded hs h hhead hstate
    · rw [h.hasStoredStaging hs]
      simp [hs.ready]

theorem interrupted_of_appendStops
    (ht : t ∈ (effect backend (.appendEnvelope
    (buildResourceHeadTransitionEnvelope at' current successor)) s).appendStops
      backend successor data) : Interrupted s current successor t := by
  have hbegun := Shape.begun backend hs at'
  unfold Store.appendStops at ht
  split at ht
  next i d hlocation =>
    have hblob : successor.location.isBlob := by rw [hlocation]; rfl
    have hstaged := hbegun.appendRow backend (r := successor.staged) hs rfl
    have hbytes := hstaged.appendBlob backend (d := d) hlocation
    simp only [mem_cons,not_mem_nil,or_false] at ht
    rcases ht with rfl | rfl | rfl | rfl
    · exact .unfinished none _ (.inl rfl) hbegun rfl
    · exact .unfinished _ _ (.inr ⟨rfl,hblob⟩) hstaged rfl
    · exact .staged _ d hbytes rfl
    · obtain ⟨data',hstored⟩ := hbegun.appended backend hs (some d)
      exact .stored current _ data' hstored rfl
  next hlocation =>
    simp only [mem_cons,not_mem_nil,or_false] at ht
    rcases ht with rfl | rfl
    · exact .unfinished none _ (.inl rfl) hbegun rfl
    · obtain ⟨data',hstored⟩ := hbegun.appended backend hs _
      exact .stored current _ data' hstored rfl

variable (backend) in
theorem Shape.supersedeHead {u : Store} (at' : Timestamp)
    (h : Shape s current successor row current e data u) :
    Shape s current successor row (current.supersede successor.id at') e data
      (effect backend (.mergeResource (current.supersede successor.id at')) u) :=
  h.mergeHead backend hs rfl rfl hs.currentReady

omit hs

variable {u : ResourceSupersession} {resourceId : ResourceId}

theorem setting_of_prepared (hquiet : s.Quiet) (hfresh : s.Fresh id)
    (hat : 0 ≤ at') (hhead : s.headOf resourceId = some current)
    (h : s.prepared env (some current) (u.apply (buildSuccessorRevision id current reason at')) blob =
      some (successor,data)) : Setting s current successor := by
  obtain ⟨hstored,hready,hlive⟩ := hquiet.heads.of_headOf hhead
  obtain ⟨-,d,-,-,rfl⟩ | ⟨-,-,-,rfl⟩ := prepared_eq_some h
  · exact ⟨hquiet,hstored,hlive,hfresh,rfl,hready,rfl,hat⟩
  · exact ⟨hquiet,hstored,hlive,hfresh,rfl,hready,rfl,hat⟩

theorem Store.Quiet.idle (h : s.Quiet) : s.Idle := by
  have hnone : ∀ ofKind, s.pendingEnvelopes ofKind = [] := by
    intro ofKind
    unfold Store.pendingEnvelopes
    rw [filter_eq_nil_iff.mpr]
    · rfl
    · intro e he hsel
      rw [decide_eq_true_eq] at hsel
      exact h.not_pending he hsel.2
  refine ⟨hnone _,hnone _,filter_eq_nil_iff.mpr fun r hr hsel => ?_⟩
  rw [decide_eq_true_eq] at hsel
  exact hsel (h.ready r hr)

theorem interrupted_of_mem_stops (hquiet : s.Quiet) (hfresh : s.Fresh id) (hat : 0 ≤ at')
    (ht : t ∈ stops (effect backend) (supersedeResource env id at' resourceId u blob).run s) :
    t = s ∨ ∃ current successor, Setting s current successor ∧ Interrupted s current successor t := by
  rcases mem_stops_supersedeResource (fun e he => (hfresh.envelopes e he).1) ht with
    rfl | ⟨current,successor,data,hhead,hprepared,hstop⟩
  · exact .inl rfl
  · have hs := setting_of_prepared hquiet hfresh hat hhead hprepared
    refine .inr ⟨current,successor,hs,?_⟩
    obtain ⟨data',hstored⟩ := (Shape.begun backend hs at').appended backend hs data
    have hgiven := hstored.supersedeHead backend hs at'
    rcases hstop with hstop | rfl | rfl
    · exact interrupted_of_appendStops hs hstop
    · exact .stored _ _ data' hgiven rfl
    · exact .applied _ _ data' (hgiven.mergeEnvelope backend hs rfl rfl) rfl rfl

variable (backend) in
/-- From a quiet store a stopped supersession is repaired alike in every order exactly if no row is
staged whose bytes are stored. -/
theorem recovery_confluent_iff (backend : Backend) (env : Env) {s : Store} (hquiet : s.Quiet)
    {id : ResourceId} (hfresh : s.Fresh id) {at' : Timestamp} (hat : 0 ≤ at')
    (resourceId : ResourceId) (u : ResourceSupersession) (blob : Option Bytes) {t : Store}
    (ht : t ∈ stops (effect backend) (supersedeResource env id at' resourceId u blob).run s)
    (later : Timestamp) : Confluent backend later t ↔ t.hasStoredStaging = false := by
  rcases interrupted_of_mem_stops hquiet hfresh hat ht with rfl | ⟨current,successor,hs,hinterrupted⟩
  · refine iff_of_true ⟨t.live,fun u hrecovers => ?_⟩ ?_
    · rw [recovers_of_idle hquiet.idle hrecovers]
      exact ⟨hquiet.toSettled,rfl⟩
    · rw [Store.hasStoredStaging,any_eq_false]
      intro r hr
      simp [hquiet.ready r hr]
  · exact hinterrupted.confluent_iff hs
end

def oneText : Store := ⟨[syncBlobMetadata plainEnv (textDraft.build 0 0) [65]],[⟨0,0,[65]⟩],[],[],
    [(0,0,.active)]⟩

theorem oneText_quiet : oneText.Quiet where
  heads := by constructor <;> simp [oneText,syncBlobMetadata,ResourceObjectBuilder.build]
  agrees := by simp [oneText]
  nodup := by simp [oneText]
  nodupEnvelopes := by simp [oneText]
  ready := by simp [oneText,syncBlobMetadata,ResourceObjectBuilder.build]

theorem oneText_fresh : oneText.Fresh 1 := by
  constructor <;> simp [oneText,syncBlobMetadata,ResourceObjectBuilder.build]

def replacing : List Store := stops (effect .memory)
    (supersedeResource plainEnv 1 1 0 unchanged (some [66])).run oneText

/-- A crash between bytes and row leaves two heads, if the envelope is first. -/
theorem two_heads_recovered : oneText.Quiet ∧ oneText.Fresh 1 ∧ ∃ t ∈ replacing,
    ¬Confluent .memory 2 t := by
  have hstaged : ∃ t ∈ replacing, t.hasStoredStaging := by decide
  obtain ⟨t,ht,hstaging⟩ := hstaged
  refine ⟨oneText_quiet,oneText_fresh,t,ht,fun hconfluent => ?_⟩
  rcases interrupted_of_mem_stops oneText_quiet oneText_fresh (by decide) ht with rfl | ⟨current,
    successor,hs,hinterrupted⟩
  · exact absurd hstaging (by decide)
  · rw [hinterrupted.confluent_iff hs,hstaging] at hconfluent
    cases hconfluent

/-- A crash before the bytes are stored is repaired. -/
theorem staged_without_bytes_recovered :
    ∃ t ∈ replacing, t.resources.length = 2 ∧ t.blobs.length = 1 ∧ Confluent .memory 2 t := by
  have hstaged : ∃ t ∈ replacing, t.resources.length = 2 ∧ t.blobs.length = 1 ∧
    t.hasStoredStaging = false := by decide
  obtain ⟨t,ht,hrows,hblobs,hstaging⟩ := hstaged
  exact ⟨t,ht,hrows,hblobs,(recovery_confluent_iff .memory plainEnv oneText_quiet oneText_fresh
    (by decide) 0 unchanged (some [66]) ht 2).mpr hstaging⟩
end Hirn.Resources
