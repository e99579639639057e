import Hirn.ResourcePurges

/-! What every run of the operations on resources keeps to, redactions, purges and their recovery
among them: each operation is followed through its storage calls, with what the others may do between. -/
namespace Hirn.Resources
open Engine Calls Runs

def MayFail (whole : Bool) (request : Request) : Prop := ¬(whole = true ∧ request.isReconcile = true)

theorem mayFail_of_not_reconcile {whole : Bool} {request : Request} (h : request.isReconcile = false) :
    MayFail whole request := by
  rintro ⟨-,hreconcile⟩
  rw [h] at hreconcile
  cases hreconcile

variable {α : Type} {F : α → Store → Prop} {m : Act α} {s : Store}

section
variable (backend : Backend) (whole finished : Bool) (c : ℕ) (call : Timestamp × Request)

/-- The action keeps to its call's part, and ends with a result in a store with `F`. -/
def Guarded {α : Type} (F : α → Store → Prop) (m : Act α) (s : Store) : Prop :=
  Safe (effect backend) (Allowed whole finished c call) Store.Consistent Guarantee c
    (fun x t => match x with
      | .ok a => F a t
      | .error _ => MayFail whole call.2) m.run s

variable {backend whole finished c call} {β : Type}

theorem Allowed.mayFail (h : Allowed whole finished c call s o false) : MayFail whole call.2 := by
  rintro ⟨hwhole,hreconcile⟩
  cases h.2.1 hwhole hreconcile

theorem guarded_pure (h : F a s) : Guarded backend whole finished c call F (pure a) s := h
theorem guarded_throw (h : MayFail whole call.2) :
    Guarded backend whole finished c call F (throw e) s := h

theorem guarded_scan (A : Store → Prop) (hs : A s) (hA : Stable Store.Consistent Guarantee c A)
    (hnext : ∀ t, t.Consistent → A t → (finished → t.Finished c call.2) → F (f t) t) :
    Guarded backend whole finished c call F (scan f) s :=
  ⟨A,hs,hA,fun t hI hAt => ⟨fun hok => ⟨hI,.refl,hnext t hI hAt hok.2.2⟩,Allowed.mayFail⟩⟩

theorem guarded_write {G : Unit → Store → Prop} (A : Store → Prop) (hs : A s)
    (hA : Stable Store.Consistent Guarantee c A) (hown : ∀ t, t.Consistent → A t → Own c t o)
    (hnext : ∀ t, t.Consistent → A t → t.Admits call.2 o → G () (effect backend o t)) :
    Guarded backend whole finished c call G (write o) s := by
  refine safe_write A hs hA (fun t hI hAt hok => ?_) fun t _ _ => Allowed.mayFail
  have hadmits := hok.1 rfl
  obtain ⟨hI',hguar⟩ := keeps_effect backend hI hadmits (hown t hI hAt)
  exact ⟨hI',hguar,hnext t hI hAt hadmits⟩

theorem lasting_true : Lasting Store.Consistent Guarantee fun _ => True := fun _ _ _ _ h _ => h

theorem guarded_write_any (hown : ∀ t, Own c t o) :
    Guarded backend whole finished c call (fun _ _ => True) (write o) s :=
  guarded_write (fun _ => True) trivial lasting_true.stable (fun t _ _ => hown t) fun _ _ _ _ =>
  trivial

variable (hs : s.Consistent)
include hs

theorem guarded_bind (hm : Guarded backend whole finished c call F m s)
    (hg : ∀ a t, t.Consistent → F a t → Guarded backend whole finished c call G (g a) t) :
    Guarded backend whole finished c call G (m >>= g) s :=
  safe_bind hs hm hg fun _ _ _ h => h

omit hs in
theorem Guarded.lasting (hm : Guarded backend whole finished c call F m s) (hs : s.Consistent)
    (hN : Lasting Store.Consistent Guarantee N) (hNs : N s) :
    Guarded backend whole finished c call (fun a t => F a t ∧ N t) m s := by
  refine Safe.mono hs (Safe.lasting hN hs hNs hm) fun x t _ h => ?_
  cases x with
  | ok a => exact h
  | error e => exact h.1

theorem guarded_attempt_bind
    (hN : Lasting Store.Consistent Guarantee N) (hNs : N s)
    (hm : Guarded backend whole finished c call F m s)
    (hok : ∀ a t, t.Consistent → F a t → N t → Guarded backend whole finished c call G (g (.ok a))
    t) (herror : MayFail whole call.2 → ∀ e t, t.Consistent → N t →
      Guarded backend whole finished c call G (g (.error e)) t) :
    Guarded backend whole finished c call G (attempt m >>= g) s := by
  refine safe_attempt_bind hs (Safe.lasting hN hs hNs hm) fun x t hI h => ?_
  cases x with
  | ok a => exact hok a t hI h.1 h.2
  | error e => exact herror h.1 e t hI h.2

theorem guarded_discard_bind
    (hN : Lasting Store.Consistent Guarantee N) (hNs : N s)
    (hm : Guarded backend whole finished c call F m s)
    (hg : ∀ t, t.Consistent → N t → Guarded backend whole finished c call G (g ()) t) :
    Guarded backend whole finished c call G (discard (attempt m) >>= g) s := by
  have heq : (discard (attempt m) >>= g) = (attempt m >>= fun _ => g ()) := by
    rw [Functor.discard,map_const,Function.comp_apply,bind_map_left]
  rw [heq]
  exact guarded_attempt_bind hs hN hNs hm (fun _ t hI _ hNt => hg t hI hNt) fun _ _ t hI hNt =>
    hg t hI hNt

section
variable (hm : Guarded backend whole finished c call F m s)
include hm

theorem guarded_discard : Guarded backend whole finished c call (fun _ _ => True)
    (discard (attempt m)) s := by
  rw [← bind_pure (discard (attempt m))]
  exact guarded_discard_bind hs lasting_true trivial hm fun _ _ _ => guarded_pure trivial

theorem guarded_map (hf : ∀ a t, F a t → G (f a) t) :
    Guarded backend whole finished c call G (f <$> m) s := by
  exact guarded_bind hs hm fun a t _ hF => guarded_pure (hf a t hF)
end
end
open List
variable {call : Timestamp × Request} {c : ℕ} {backend : Backend} {L : LogicalResourceId}

section
variable {whole finished : Bool}
  {A : Store → Prop} {resourceId : ResourceId} (hA : Stable Store.Consistent Guarantee c A)

include hA

theorem guarded_getResourceHead (hunborn : ∀ t, A t → t.Unborn c) (hs : s.Consistent) (hAs : A s) :
    Guarded backend whole finished c call (fun head t => A t ∧ ∀ h, head = some h → h.birth ∈ t.born ∧
      h.storageReady ∧ h.id ≠ c ∧ (finished → ∀ g ∈ call.2.governs, g.1 = resourceId →
        h.governanceState = g.2 → t.Purged h.logicalResourceId)) (getResourceHead resourceId) s := by
  refine guarded_bind (F := fun revisions t => A t ∧ ∀ h, selectActiveResourceHead revisions = some h →
    h.birth ∈ t.born ∧ h.storageReady = true ∧ h.id ≠ c ∧
    (finished = true → ∀ g ∈ call.2.governs, g.1 = resourceId →
      h.governanceState = g.2 → t.Purged h.logicalResourceId)) hs ?_ fun _ _ _ h => guarded_pure h
  refine guarded_bind (F := fun row t => A t ∧ ∀ r, row = some r → r.birth ∈ t.born ∧
    r.id = resourceId) hs
    (guarded_scan A hAs hA fun t hI hAt _ => ⟨hAt,fun r hr => ?_⟩) fun row t hI h => ?_
  · obtain ⟨hmem,hid,-⟩ := (Store.resourceRaw_eq_some hI.nodup).mp hr
    exact ⟨hI.born r hmem,hid⟩
  cases row with
  | none => exact guarded_pure ⟨h.1,fun h hnone => nomatch hnone⟩
  | some r =>
    obtain ⟨hborn,hid⟩ := h.2 r rfl
    refine guarded_scan (fun t => A t ∧ r.birth ∈ t.born) ⟨h.1,hborn⟩
      (hA.and (lasting_born _).stable) fun t hI hAt hfinished => ⟨hAt.1,fun h hhead => ?_⟩
    obtain ⟨hmem,hL,hready⟩ := Store.head_mem hhead
    have hothers : ∀ r ∈ t.resources, r.id ≠ c :=
      fun r hr => (hunborn t hAt.1).1 r.birth (hI.born r hr)
    refine ⟨hI.born h hmem,hready,hothers h hmem,fun hfin g hg hgid hstate => ?_⟩
    rw [hL]
    exact hfinished hfin g hg hothers r.birth hAt.2 (hid.trans hgid.symm) h hhead hstate

variable {blob : Option Bytes} {env : Env}

theorem guarded_prepareBlobPayload (hs : s.Consistent) (hAs : A s) (hfail : MayFail whole call.2) :
    Guarded backend whole finished c call (fun p t => A t ∧ p.1.birth = resource.birth ∧
      p.1.storageReady = resource.storageReady) (prepareBlobPayload env current resource blob) s := by
  unfold prepareBlobPayload
  cases resource.location with
  | inline =>
    cases blob with
    | none => exact guarded_pure ⟨hAs,rfl,rfl⟩
    | some data => exact guarded_throw hfail
  | external uri =>
    cases blob with
    | none => exact guarded_pure ⟨hAs,rfl,rfl⟩
    | some data => exact guarded_throw hfail
  | blob index =>
    cases blob with
    | some data => exact guarded_pure ⟨hAs,rfl,rfl⟩
    | none =>
      cases current with
      | none => exact guarded_throw hfail
      | some current =>
        dsimp only
        cases current.location with
        | inline => exact guarded_throw hfail
        | external uri => exact guarded_throw hfail
        | blob blobIndex =>
          refine guarded_bind (F := fun _ t => A t) hs ?_ fun data t _ hAt =>
            guarded_pure ⟨hAt,rfl,rfl⟩
          refine guarded_bind (F := fun _ t => A t) hs (guarded_scan A hAs hA fun t _ hAt _ => hAt)
            fun data t _ hAt => ?_
          cases data with
          | none => exact guarded_throw hfail
          | some data => exact guarded_pure hAt

omit hA in
theorem guarded_rollback (hid : resource.id = c) (hs : s.Consistent) :
    Guarded backend whole finished c call (fun _ _ => True) (rollbackResourceRevision resource) s := by
  refine guarded_discard_bind hs lasting_true trivial (guarded_write_any fun _ => hid) fun t hI _ => ?_
  split
  · exact guarded_discard hI (guarded_write_any fun _ => trivial)
  · exact guarded_pure trivial

omit hA in
theorem guarded_appendResourceRevision (hid : resource.id = c)
    (hready : resource.storageReady) (hs : s.Consistent) (hunborn : s.Unborn c) :
    Guarded backend whole finished c call (fun _ t => t.Visible resource.birth)
      (appendResourceRevision resource blob) s := by
  have hplain : Guarded backend whole finished c call (fun _ t => t.Visible resource.birth)
      (write (.appendResource resource)) s :=
    guarded_write (fun t => t.Unborn c) hunborn stable_unborn (fun t _ h => ⟨hid,h⟩) fun t _ _ _ =>
      ⟨resource,mem_append_right _ (mem_singleton_self _),hready,rfl⟩
  unfold appendResourceRevision
  split
  next blobIndex data =>
    have hborn := lasting_born resource.birth
    refine guarded_bind (F := fun _ t => resource.birth ∈ t.born) hs
      (guarded_write (fun t => t.Unborn c) hunborn stable_unborn (fun t _ h => ⟨hid,h⟩) fun t _ _ _ =>
        mem_append_right _ (mem_singleton_self _)) fun _ t hI hbirth => ?_
    refine guarded_attempt_bind hI hborn hbirth (guarded_write_any fun _ => trivial)
      (fun _ t hI _ hbirth => ?_) fun hfail e t hI _ => ?_
    · refine guarded_attempt_bind (F := fun _ t => t.Visible resource.birth) hI lasting_true trivial
        (guarded_write (fun t => resource.birth ∈ t.born) hbirth hborn.stable
          (fun t _ h => ⟨rfl,h⟩) fun t _ _ _ => ⟨resource.finalized,mem_mergeInsert.mpr (.inl rfl),
          rfl,rfl⟩)
        (fun _ t _ h _ => guarded_pure h) fun hfail e t hI _ => ?_
      exact guarded_bind hI (guarded_rollback hid hI) fun _ t _ _ => guarded_throw hfail
    · exact guarded_bind hI (guarded_rollback hid hI) fun _ t _ _ => guarded_throw hfail
  · exact hplain

variable {now : Timestamp} {id : EnvelopeId} {payload : EnvelopePayload}
    {state : MutationEnvelopeState}
  {lastError : Option HirnDbError}

theorem guarded_updateMutationEnvelopeState {B : Store → Prop}
    (hs : s.Consistent) (hAs : A s) (hrecorded : s.Recorded id payload)
    (happlied : state = .applied → ∀ t, A t → t.IsPending id → ∀ L ∈ payload.purges,
    ¬t.HasPayload L) (hB : ∀ t row, A t → B (effect backend (.mergeEnvelope row) t)) :
    Guarded backend whole finished c call (fun _ t => B t ∧ (state ≠ .pending → t.Closed id))
      (updateMutationEnvelopeState now id state lastError) s := by
  have hstable := hA.and (lasting_recorded id payload).stable
  refine guarded_bind (F := fun found t => (A t ∧ t.Recorded id payload) ∧
    ∃ e, found = some e ∧ e.id = id ∧ e.payload = payload) hs
    (guarded_scan _ ⟨hAs,hrecorded⟩ hstable fun t hI h _ => ⟨h,?_⟩) fun found t hI h => ?_
  · obtain ⟨e,he,hid⟩ := h.2.1
    exact ⟨e,(find?_key_eq_some hI.nodupEnvelopes).mpr ⟨he,hid⟩,hid,h.2.2 e he hid⟩
  obtain ⟨h,e,rfl,hid,hpayload⟩ := h
  refine guarded_write _ h hstable (fun t _ h => ?_) fun t hI h _ => ⟨hB t _ h.1,fun hstate => ?_⟩
  · obtain ⟨f,hf,hfid⟩ := h.2.1
    refine ⟨f,hf,hfid.trans hid.symm,(h.2.2 f hf hfid).trans hpayload.symm,fun hstate hpending => ?_⟩
    rw [hpayload]
    exact happlied hstate t h.1 ⟨f,hf,hfid,hpending⟩
  · refine ⟨⟨_,mem_mergeInsert.mpr (.inl rfl),hid⟩,?_⟩
    rintro ⟨f,hf,hfid,hpending⟩
    rcases mem_mergeInsert.mp hf with rfl | ⟨-,hne⟩
    · exact hstate hpending
    · exact hne (hfid.trans hid.symm)

omit hA

theorem guarded_persistResource (hid : resource.id = c)
    (hready : resource.storageReady) (hs : s.Consistent) (hunborn : s.Unborn c)
    (hfail : MayFail whole call.2) :
    Guarded backend whole finished c call (fun _ _ => True) (persistResource env resource blob) s := by
  refine guarded_bind hs (guarded_prepareBlobPayload stable_unborn hs hunborn hfail) fun p t hI h => ?_
  obtain ⟨r,data⟩ := p
  obtain ⟨hunborn,hbirth,hready'⟩ := h
  have hrid : r.id = c := (congrArg (·.1) hbirth).trans hid
  have hgo : ∀ existing t, t.Consistent → t.Unborn c →
      Guarded backend whole finished c call (fun _ _ => True) (match existing with
        | some existing => pure existing
        | none => do
          appendResourceRevision r data
          return r : Act ResourceObject) t := by
    intro existing t hI hunborn
    cases existing with
    | some existing => exact guarded_pure trivial
    | none =>
      exact guarded_bind hI (guarded_appendResourceRevision hrid (hready'.trans hready) hI hunborn)
        fun _ _ _ _ => guarded_pure trivial
  dsimp only
  cases r.checksum with
  | none => exact hgo none t hI hunborn
  | some checksum =>
    exact guarded_bind (F := fun _ t => t.Unborn c) hI
      (guarded_scan _ hunborn stable_unborn fun _ _ h _ => h) fun existing t hI h =>
      hgo existing t hI h

theorem guarded_appendEnvelope (row : MutationEnvelopeRecord) (hid : row.id.successorId = c)
    (hunborn : s.Unborn c) (hnone : ∀ e ∈ s.envelopes, e.id.successorId ≠ c) :
    Guarded backend whole finished c call (fun _ t => t.Unborn c ∧ t.Recorded row.id row.payload)
      (write (.appendEnvelope row)) s := by
  have hnew : ∀ t : Store, (∀ e ∈ t.envelopes, e.id.successorId ≠ c) → ∀ e ∈ t.envelopes,
    e.id ≠ row.id :=
    fun t hnone e he heq => hnone e he (heq ▸ hid)
  refine guarded_write _ ⟨hunborn,hnone⟩ (stable_unborn.and stable_noEnvelope)
    (fun t _ h => ⟨hid,hnew t h.2⟩)
    fun t _ h _ => ⟨h.1,⟨row,mem_append_right _ (mem_singleton_self _),rfl⟩,fun e he heq => ?_⟩
  rcases mem_append.mp he with he | he
  · exact absurd heq (hnew t h.2 e he)
  · rw [mem_singleton.mp he]

theorem guarded_mark (hstate : state = .applied → payload.purges = none) (hs : s.Consistent)
    (hrecorded : s.Recorded id payload) :
    Guarded backend whole finished c call (fun _ t => True ∧ (state ≠ .pending → t.Closed id))
      (updateMutationEnvelopeState now id state lastError) s := by
  refine guarded_updateMutationEnvelopeState lasting_true.stable hs trivial hrecorded
    (fun happlied _ _ _ L hL => ?_) fun _ _ _ => trivial
  rw [hstate happlied] at hL
  cases hL

theorem guarded_supersedeHead (hready : current.storageReady) (hne : current.id ≠ c)
    (hx : x.1 = c) (hborn : current.birth ∈ s.born) (hvisible : s.Visible x) :
    Guarded backend whole finished c call (fun _ t => t.Visible x)
    (supersedeHead now current successor) s := by
  refine guarded_write (fun t => current.birth ∈ t.born ∧ t.Visible x) ⟨hborn,hvisible⟩
    ((lasting_born _).stable.and (stable_visible x hx)) (fun t _ h => ⟨hready,h.1⟩) fun t _ h _ => ?_
  obtain ⟨r,hr,hready',rfl⟩ := h.2
  exact ⟨r,mem_mergeInsert.mpr (.inr ⟨hr,fun heq => hne (heq.symm.trans hx)⟩),hready',rfl⟩

theorem stable_begin :
    Stable Store.Consistent Guarantee c fun t => t.Unborn c ∧ ∀ e ∈ t.envelopes,
    e.id.successorId ≠ c :=
  stable_unborn.and stable_noEnvelope

theorem guarded_supersedeResource
    (hs : s.Consistent) (hunborn : s.Unborn c) (hnone : ∀ e ∈ s.envelopes, e.id.successorId ≠ c)
    (hfail : MayFail whole call.2) :
    Guarded backend whole finished c call (fun _ _ => True)
    (supersedeResource env c now resourceId u blob) s := by
  refine guarded_bind hs (guarded_getResourceHead stable_begin (fun _ h => h.1) hs ⟨hunborn,hnone⟩)
    fun head t hI h => ?_
  cases head with
  | none => exact guarded_throw hfail
  | some current =>
    obtain ⟨hbegin,hcurrent⟩ := h
    obtain ⟨hborn,hready,hne,-⟩ := hcurrent current rfl
    refine guarded_bind hI (guarded_prepareBlobPayload
      (stable_begin.and (lasting_born current.birth).stable) hI
      ⟨hbegin,hborn⟩ hfail) fun p t hI h => ?_
    obtain ⟨successor,data⟩ := p
    obtain ⟨⟨hbegin,hborn⟩,hbirth,hsuccessor⟩ := h
    have hid : successor.id = c := congrArg (·.1) hbirth
    have hrecording := lasting_recorded (.resourceHead successor.id)
      (.headTransition current.id successor.id successor.createdAt)
    refine guarded_bind hI ((guarded_appendEnvelope
      (buildResourceHeadTransitionEnvelope now current successor)
      hid hbegin.1 hbegin.2).lasting hI (lasting_born current.birth) hborn) fun _ t hI h => ?_
    obtain ⟨⟨hunborn,hrecorded⟩,hborn⟩ := h
    refine guarded_attempt_bind hI (hrecording.and (lasting_born current.birth)) ⟨hrecorded,hborn⟩
      (guarded_appendResourceRevision hid (hsuccessor.trans hready) hI hunborn)
      (fun _ t hI hvisible h => ?_) fun _ e t hI h => ?_
    · refine guarded_attempt_bind hI hrecording h.1 (guarded_supersedeHead hready hne hid h.2 hvisible)
        (fun _ t hI _ hrecorded => ?_) fun _ e t hI hrecorded => ?_
      · exact guarded_bind hI (guarded_mark (fun _ => rfl) hI hrecorded) fun _ _ _ _ =>
          guarded_pure trivial
      · refine guarded_bind hI ((guarded_rollback hid hI).lasting hI hrecording hrecorded)
          fun _ t hI h => ?_
        exact guarded_discard_bind hI lasting_true trivial (guarded_mark (fun _ => rfl) hI h.2)
          fun _ _ _ => guarded_throw hfail
    · exact guarded_discard_bind hI lasting_true trivial (guarded_mark (fun _ => rfl) hI h.1)
        fun _ _ _ => guarded_throw hfail

theorem not_of_covered {id : ResourceId} (hne : ids ≠ [])
    (hids : ∀ id ∈ ids, s.Of id L) (hcovers : s.Covers ids rows) (hrow : id ∈ rows)
    (hdeleted : id ∉ ids) : ¬s.Of id L := by
  rintro ⟨y,hy,rfl,hL⟩
  obtain ⟨first,hfirst⟩ := exists_mem_of_ne_nil ids hne
  obtain ⟨x,hx,rfl,hxL⟩ := hids first hfirst
  exact hdeleted (hcovers x hx hfirst y hy (hL.trans hxL.symm) hrow)

/-- The rows of a lineage go that gets no new ones while `K` holds. -/
theorem guarded_deleteLineage {V K : Store → Prop}
    (hpurging : call.2.governs.isSome || call.2.isReconcile)
    (hV : Stable Store.Consistent Guarantee c V)
    (hsame : ∀ t blobs artifacts, V t → V {t with blobs,artifacts}) (hshown : ∀ t, V t → t.Shown L)
    (hK : ∀ d t t', V t → Guarantee d t t' → K t' → K t)
    (hsameK : ∀ t artifacts, K {t with artifacts} → K t)
    (hshut : ∀ t, V t → K t → t.Governed L ∨ t.PurgePending L) (hs : s.Consistent) (hVs : V s) :
    Guarded backend whole finished c call (fun _ t => V t ∧ (K t → ¬t.HasPayload L))
      (deleteLineagePayloadsAndArtifacts L) s := by
  refine guarded_bind (F := fun revisions t => V t ∧ revisions ≠ [] ∧ ∀ id ∈ revisions.map (·.id),
    t.Of id L) hs (guarded_scan V hVs hV fun t hI hVt _ => ⟨hVt,?_,?_⟩) fun revisions t hI h => ?_
  · obtain ⟨r,hr,hready,hL⟩ := hshown t hVt
    exact ne_nil_of_mem (Store.mem_revisions.mpr ⟨hr,hL,hready⟩)
  · intro id hid
    obtain ⟨r,hr,rfl⟩ := mem_map.mp hid
    obtain ⟨hmem,hL,-⟩ := Store.mem_revisions.mp hr
    exact ⟨r.birth,hI.born r hmem,rfl,hL⟩
  obtain ⟨hVt,hne,hids⟩ := h
  generalize hlist : revisions.map (·.id) = ids at hids
  have hne : ids ≠ [] := fun hnil => hne (map_eq_nil_iff.mp (hlist.trans hnil))
  have hof : Lasting Store.Consistent Guarantee fun t => ∀ id ∈ ids, t.Of id L := by
    intro d t t' _ hids h id hid
    obtain ⟨x,hx,heq⟩ := hids id hid
    exact ⟨x,h.born x hx,heq⟩
  rw [if_neg (by simpa using hne)]
  refine guarded_bind (F := fun _ t => V t ∧ (∀ id ∈ ids, t.Of id L) ∧ (K t → t.NoBlobs L)) hI
    (guarded_write (fun t => V t ∧ ∀ id ∈ ids, t.Of id L) ⟨hVt,hids⟩ (hV.and hof.stable)
    (fun _ _ _ => trivial)
      fun t _ h hadmits => ⟨hsame t _ _ h.1,h.2,fun _ id hid => ?_⟩) fun _ t hI h => ?_
  · obtain ⟨b,hb,rfl⟩ := mem_map.mp hid
    obtain ⟨hb,hdeleted⟩ := mem_filter.mp hb
    exact not_of_covered hne h.2 (hadmits hpurging) (mem_map_of_mem hb) (by simpa using hdeleted)
  · refine guarded_write (fun t => V t ∧ (∀ id ∈ ids, t.Of id L) ∧ (K t → t.NoBlobs L)) h ?_
      (fun _ _ _ => trivial) fun t _ h hadmits => ⟨hsame t _ _ h.1,
      fun hKt => Store.not_hasPayload.mpr ⟨h.2.2 (hsameK t _ hKt),fun id hid => ?_⟩⟩
    · rintro d t t' hd hI ⟨hVt,hids,hblobs⟩ h
      refine ⟨hV d t t' hd hI hVt h,hof d t t' hI hids h,fun hKt => ?_⟩
      have hKt := hK d t t' hVt h hKt
      exact h.noBlobs hI (hshut t hVt hKt) (hblobs hKt)
    · obtain ⟨a,ha,rfl⟩ := mem_map.mp hid
      obtain ⟨ha,hdeleted⟩ := mem_filter.mp ha
      exact not_of_covered hne h.2.1 hadmits (mem_map_of_mem ha) (by simpa using hdeleted)

/-- A redaction or purge that succeeds leaves nothing behind. -/
theorem guarded_governResource {state : ResourceGovernanceState} {update : ResourceGovernanceUpdate}
    (hgoverns : call.2.governs = some (resourceId,state)) (hhides : state.hidesPayload)
    (hs : s.Consistent)
    (hunborn : s.Unborn c) (hnone : ∀ e ∈ s.envelopes, e.id.successorId ≠ c)
    (hfail : MayFail whole call.2) :
    Guarded backend whole finished c call (fun r t => finished → t.Gone c r.logicalResourceId)
      (governResource env c now resourceId state update) s := by
  refine guarded_bind hs (guarded_getResourceHead stable_begin (fun _ h => h.1) hs ⟨hunborn,hnone⟩)
    fun head t hI h => ?_
  cases head with
  | none => exact guarded_throw hfail
  | some current =>
    obtain ⟨hbegin,hcurrent⟩ := h
    obtain ⟨hborn,hready,hne,hpurged⟩ := hcurrent current rfl
    dsimp only
    split
    next hsame =>
      exact guarded_pure fun hfinished =>
        (hpurged hfinished (resourceId,state) hgoverns rfl hsame).gone
    · generalize hsuccessor : placeholder env c now current state update = successor
      have hid : successor.id = c := by rw [← hsuccessor]; rfl
      have hL : successor.logicalResourceId = current.logicalResourceId := by rw [← hsuccessor]; rfl
      have hstate : successor.governanceState = state := by rw [← hsuccessor]; rfl
      have hsuccessorReady : successor.storageReady := by rw [← hsuccessor]; exact hready
      have hrecording := lasting_recorded (.resourcePurge successor.id)
        (.payloadPurge current.logicalResourceId successor.id)
      refine guarded_bind hI ((guarded_appendEnvelope
        (buildResourcePayloadPurgeEnvelope now current successor)
        hid hbegin.1 hbegin.2).lasting hI (lasting_born current.birth) hborn) fun _ t hI h => ?_
      obtain ⟨⟨hunborn,hrecorded⟩,hborn⟩ := h
      refine guarded_attempt_bind hI (hrecording.and (lasting_born current.birth)) ⟨hrecorded,hborn⟩
        (guarded_appendResourceRevision hid hsuccessorReady hI hunborn)
        (fun _ t hI hvisible h => ?_) fun _ e t hI h => ?_
      · refine guarded_attempt_bind hI hrecording h.1
          (guarded_supersedeHead hready hne hid h.2 hvisible)
          (fun _ t hI hvisible hrecorded => ?_) fun _ e t hI hrecorded => ?_
        · have hhidden : successor.governanceState.hidesPayload := hstate ▸ hhides
          refine guarded_attempt_bind hI hrecording hrecorded (guarded_deleteLineage (by rw [hgoverns]; rfl)
            (stable_visible successor.birth hid) (fun _ _ _ h => h) (fun _ h => hL ▸ h.shown)
            (fun _ _ _ _ _ (h : True) => h) (fun _ _ h => h)
            (fun _ h _ => .inl (hL ▸ h.governed hhidden)) hI hvisible)
            (fun _ t hI h hrecorded => ?_) fun _ e t hI hrecorded => ?_
          · have hcleared : t.Visible successor.birth ∧ ¬t.HasPayload successor.logicalResourceId :=
              ⟨h.1,hL ▸ h.2 trivial⟩
            refine guarded_bind hI (guarded_updateMutationEnvelopeState
              (B := fun t => t.Visible successor.birth ∧
              ¬t.HasPayload successor.logicalResourceId) (stable_cleared hid hhidden) hI hcleared
              hrecorded
              (fun _ t h _ L hpurges => ?_) fun _ _ h => h) fun _ t _ h => guarded_pure fun _ => ?_
            · obtain rfl : current.logicalResourceId = L := Option.some.inj hpurges
              exact hL ▸ h.2
            · exact ⟨h.1.2,successor.birth,h.1.1,rfl,hhidden,.inl hid⟩
          · exact guarded_discard_bind hI lasting_true trivial
              (guarded_mark (fun h => nomatch h) hI hrecorded) fun _ _ _ => guarded_throw hfail
        · refine guarded_bind hI ((guarded_rollback hid hI).lasting hI hrecording hrecorded)
            fun _ t hI h => ?_
          exact guarded_discard_bind hI lasting_true trivial
            (guarded_mark (fun h => nomatch h) hI h.2) fun _ _ _ => guarded_throw hfail
      · exact guarded_discard_bind hI lasting_true trivial
          (guarded_mark (fun h => nomatch h) hI h.1) fun _ _ _ => guarded_throw hfail

theorem stable_emptied (hpurges : payload.purges = some L) :
    Stable Store.Consistent Guarantee c fun t =>
      t.Recorded id payload ∧ (t.IsPending id → ¬t.HasPayload L) := by
  rintro d t t' - hI ⟨hrecorded,hnone⟩ h
  refine ⟨lasting_recorded id payload d t t' hI hrecorded h,fun hpending => ?_⟩
  have hpending := h.isPending hrecorded hpending
  exact h.not_hasPayload hI (.inr (hrecorded.purgePending hpending hpurges)) (hnone hpending)

/-- An envelope that is reconciled is done with, if no storage call fails. -/
theorem guarded_reconcileOne {envelope : MutationEnvelopeRecord}
    (hreconcile : call.2.isReconcile) (hpurges : envelope.payload.purges = some L)
    (hs : s.Consistent) (hrecorded : s.Recorded envelope.id envelope.payload) :
    Guarded backend whole finished c call (fun _ t => ¬MayFail whole call.2 → t.Closed envelope.id)
      (reconcileOne (reconcileSingleResourcePayloadPurge now)
        (fun id error => updateMutationEnvelopeState now id .pending (some error)) envelope) s := by
  have hrecording := lasting_recorded envelope.id envelope.payload
  refine guarded_attempt_bind (F := fun _ t => t.Closed envelope.id) hs hrecording hrecorded ?_
    (fun _ t _ h _ => guarded_pure fun _ => h) fun hfail e t hI hrecorded => ?_
  · unfold reconcileSingleResourcePayloadPurge
    cases hpayload : envelope.payload with
    | headTransition currentId successorId createdAt => simp [hpayload,
        EnvelopePayload.purges] at hpurges
    | payloadPurge logicalResourceId governedHeadId =>
      obtain rfl : logicalResourceId = L := by rw [hpayload] at hpurges; exact Option.some.inj hpurges
      refine guarded_bind (F := fun head t => t.Recorded envelope.id envelope.payload ∧
        ∀ h, head = some h → t.Shown logicalResourceId) hs ?_ fun head t hI h => ?_
      · refine guarded_bind (F := fun revisions t => t.Recorded envelope.id envelope.payload ∧
          ∀ h, selectActiveResourceHead revisions = some h → t.Shown logicalResourceId) hs
          (guarded_scan _ hrecorded hrecording.stable fun t _ hrecorded _ =>
          ⟨hrecorded,fun h hhead => ?_⟩) fun _ _ _ h => guarded_pure h
        obtain ⟨hmem,hL,hready⟩ := Store.head_mem hhead
        exact ⟨h,hmem,hready,hL⟩
      obtain ⟨hrecorded,hshown⟩ := h
      have hgiveUp : ∀ (b : Bool) error, Guarded backend whole finished c call
        (fun _ t => t.Closed envelope.id)
          (do updateMutationEnvelopeState now envelope.id .failed (some error); return b) t := fun b error =>
        guarded_bind hI (guarded_mark (fun h => nomatch h) hI hrecorded) fun _ _ _ h =>
          guarded_pure (h.2 (by simp))
      cases head with
      | none => exact hgiveUp false _
      | some head =>
        dsimp only
        split
        · refine guarded_bind hI (guarded_deleteLineage (by rw [hreconcile,Bool.or_true])
            (hrecording.and (lasting_shown logicalResourceId)).stable (fun _ _ _ h => h)
            (fun _ h => h.2) (fun _ _ _ h hguar => hguar.isPending h.1) (fun _ _ h => h)
            (fun _ h hpending => .inr (h.1.purgePending hpending hpurges)) hI
            ⟨hrecorded,hshown head rfl⟩) fun _ t hI h => ?_
          refine guarded_bind hI (guarded_updateMutationEnvelopeState (B := fun _ => True)
            (stable_emptied hpurges) hI ⟨h.1.1,h.2⟩ h.1.1 (fun _ t h hpending L' hL' => ?_)
            fun _ _ _ => trivial) fun _ _ _ h => guarded_pure (h.2 (by simp))
          obtain rfl : logicalResourceId = L' := Option.some.inj (hpurges.symm.trans hL')
          exact h.2 hpending
        · exact hgiveUp true _
  · exact guarded_discard_bind hI lasting_true trivial (guarded_mark (fun h => nomatch h) hI hrecorded)
      fun _ _ _ => guarded_pure fun hwhole => absurd hfail hwhole

/-- The envelopes `old` are there, and their pending purges are all in the list. -/
def Store.Left (old : List EnvelopeId) (envelopes : List MutationEnvelopeRecord) (s : Store) : Prop :=
  (∀ id ∈ old, ∃ e ∈ s.envelopes, e.id = id) ∧ ∀ e ∈ s.envelopes, e.state = .pending →
    e.payload.purges.isSome = true → e.id ∈ old → e.id ∈ envelopes.map (·.id)

variable (old : List EnvelopeId)

theorem lasting_exist : Lasting Store.Consistent Guarantee fun s => ∀ id ∈ old, ∃ e ∈ s.envelopes,
    e.id = id := by
  intro d s s' _ hold h id hid
  obtain ⟨e,he,rfl⟩ := hold id hid
  exact h.envelopes e he

theorem lasting_left (envelopes : List MutationEnvelopeRecord) :
    Lasting Store.Consistent Guarantee (Store.Left old envelopes) := by
  rintro d s s' hs ⟨hold,hleft⟩ h
  refine ⟨lasting_exist old d s s' hs hold h,fun e' he' hpending hpurges hid => ?_⟩
  rcases h.envelopesOnly e' he' with ⟨e,he,heq,hpayload,hback,-⟩ | ⟨-,hnew⟩
  · rw [← heq] at hid ⊢
    exact hleft e he (hback hpending) (hpayload ▸ hpurges) hid
  · obtain ⟨e,he,heq⟩ := hold e'.id hid
    exact absurd heq (hnew e he)

variable {old}

theorem guarded_reconcileEach (hreconcile : call.2.isReconcile) (hT : T → ¬MayFail whole call.2)
    (hpurges : ∀ e ∈ envelopes, e.payload.purges.isSome) (hs : s.Consistent)
    (hrecorded : ∀ e ∈ envelopes, s.Recorded e.id e.payload) (hleft : T → s.Left old envelopes) :
    Guarded backend whole finished c call (fun _ t => T → t.Left old [])
      (reconcileEach (reconcileSingleResourcePayloadPurge now)
        (fun id error => updateMutationEnvelopeState now id .pending (some error)) envelopes) s := by
  induction envelopes generalizing s with
  | nil => exact guarded_pure hleft
  | cons e envelopes ih =>
    obtain ⟨L,hL⟩ := Option.isSome_iff_exists.mp (hpurges e mem_cons_self)
    have hlater : Lasting Store.Consistent Guarantee fun t =>
        (∀ e ∈ envelopes, t.Recorded e.id e.payload) ∧ (T → t.Left old (e::envelopes)) := by
      rintro d t t' hI ⟨hrecorded,hleft⟩ h
      exact ⟨fun e he => lasting_recorded e.id e.payload d t t' hI (hrecorded e he) h,
        fun hholds => lasting_left old _ d t t' hI (hleft hholds) h⟩
    refine guarded_bind hs ((guarded_reconcileOne hreconcile hL hs
      (hrecorded e mem_cons_self)).lasting hs hlater
      ⟨fun e he => hrecorded e (mem_cons_of_mem _ he),hleft⟩) fun n t hI h => ?_
    obtain ⟨hclosed,hrecorded,hleft⟩ := h
    refine guarded_bind hI (ih (fun e he => hpurges e (mem_cons_of_mem _ he)) hI hrecorded
      fun hholds => ?_) fun _ _ _ h => guarded_pure h
    refine ⟨(hleft hholds).1,fun f hf hpending hpurges hid => ?_⟩
    rcases mem_cons.mp ((hleft hholds).2 f hf hpending hpurges hid) with heq | hmem
    · exact absurd ⟨f,hf,heq,hpending⟩ (hclosed (hT hholds)).2
    · exact hmem

theorem guarded_reconcileResourcePayloadPurges
    (hreconcile : call.2.isReconcile) (hT : T → ¬MayFail whole call.2) (hs : s.Consistent)
    (hold : T → ∀ id ∈ old, ∃ e ∈ s.envelopes, e.id = id) :
    Guarded backend whole finished c call (fun _ t => T → t.Left old [])
    (reconcileResourcePayloadPurges now) s := by
  have hlasting : Lasting Store.Consistent Guarantee fun t => T → ∀ id ∈ old, ∃ e ∈ t.envelopes,
    e.id = id :=
    fun d t t' hI hold h hholds => lasting_exist old d t t' hI (hold hholds) h
  refine guarded_bind (F := fun envelopes t => (∀ e ∈ envelopes, e.payload.purges.isSome = true) ∧
    (∀ e ∈ envelopes, t.Recorded e.id e.payload) ∧ (T → t.Left old envelopes)) hs
    (guarded_scan _ hold hlasting.stable fun t hI hold _ => ?_)
    fun envelopes t hI h => guarded_reconcileEach hreconcile hT h.1 hI h.2.1 h.2.2
  have hmem : ∀ e, e ∈ t.pendingEnvelopes EnvelopePayload.isPayloadPurge ↔
      e ∈ t.envelopes ∧ e.payload.purges.isSome = true ∧ e.state = .pending := by
    intro e
    have hkind : e.payload.isPayloadPurge = e.payload.purges.isSome := by cases e.payload <;> rfl
    simp [Store.pendingEnvelopes,hkind]
  refine ⟨fun e he => ((hmem e).mp he).2.1,fun e he => ?_,
    fun hholds => ⟨hold hholds,fun e he hpending hpurges _ => ?_⟩⟩
  · have he := ((hmem e).mp he).1
    refine ⟨⟨e,he,rfl⟩,fun f hf heq => ?_⟩
    rw [inj_on_of_nodup_map hI.nodupEnvelopes hf he heq]
  · exact mem_map_of_mem ((hmem e).mpr ⟨he,hpurges,hpending⟩)

theorem guarded_persistDerivedArtifact :
    Guarded backend whole finished c call (fun _ _ => True) (persistDerivedArtifact artifact) s :=
  guarded_write_any fun _ => trivial

theorem guarded_persistDerivedArtifactWithBlob (hs : s.Consistent) (hfail : MayFail whole call.2) :
    Guarded backend whole finished c call (fun _ _ => True)
    (persistDerivedArtifactWithBlob artifact data) s := by
  unfold persistDerivedArtifactWithBlob
  cases artifact.blobIndex with
  | none => exact guarded_throw hfail
  | some blobIndex =>
    refine guarded_bind hs (guarded_write_any fun _ => trivial) fun _ t hI _ => ?_
    refine guarded_attempt_bind hI lasting_true trivial guarded_persistDerivedArtifact
      (fun _ _ _ _ _ => guarded_pure trivial) fun _ e t hI _ => ?_
    exact guarded_discard_bind hI lasting_true trivial (guarded_write_any fun _ => trivial)
      fun _ _ _ => guarded_throw hfail
end
variable (whole finished : Bool) (c₀ : ℕ) (old : List EnvelopeId)

/-- Nothing of the call is there; for the call `c₀`, the envelopes `old` are. -/
structure Begins (c : ℕ) (s : Store) : Prop where
  unborn : s.Unborn c
  noEnvelope : ∀ e ∈ s.envelopes, e.id.successorId ≠ c
  exist : c = c₀ → ∀ id ∈ old, ∃ e ∈ s.envelopes, e.id = id

/-- What holds from the reply of a call on. -/
structure Holds (c : ℕ) (call : Timestamp × Request) (reply : Except HirnDbError Reply)
    (s : Store) : Prop where
  gone : ∀ r, reply = .ok (.revision r) → call.2.governs.isSome = true → finished = true →
    s.Gone c r.logicalResourceId
  left : ∀ n, reply = .ok (.reconciled n) → c = c₀ → whole = true → s.Left old []

variable {whole finished c₀ old}

theorem stable_begins (c : ℕ) : Stable Store.Consistent Guarantee c (Begins c₀ old c) := by
  intro d s s' hd hs hbegins h
  exact ⟨stable_unborn d s s' hd hs hbegins.unborn h,stable_noEnvelope d s s' hd hs
    hbegins.noEnvelope h,fun hc => lasting_exist old d s s' hs (hbegins.exist hc) h⟩

theorem stable_holds (c : ℕ) (call : Timestamp × Request) (reply : Except HirnDbError Reply) :
    Stable Store.Consistent Guarantee c (Holds whole finished c₀ old c call reply) := by
  intro d s s' hd hs hholds h
  exact ⟨fun r hr hgoverns hfinished => stable_gone d s s' hd hs
    (hholds.gone r hr hgoverns hfinished) h,
    fun n hn hc hwhole => lasting_left old [] d s s' hs (hholds.left n hn hc hwhole) h⟩

theorem safe_reply (hs : s.Consistent) (hm : Guarded backend whole finished c call F m s)
    (hF : ∀ a t, F a t → Holds whole finished c₀ old c call (.ok (f a)) t) :
    Safe (effect backend) (Allowed whole finished c call) Store.Consistent Guarantee c
      (Holds whole finished c₀ old c call) (f <$> m).run s := by
  refine Safe.mono hs (guarded_map (G := fun reply t => Holds whole finished c₀ old c call
    (.ok reply) t) hs hm hF) fun reply t _ h => ?_
  cases reply with
  | ok reply => exact h
  | error e => exact ⟨fun _ hr => (nomatch hr),fun _ hn => nomatch hn⟩

/-- Every request keeps to what it may do. -/
theorem sound_serve (backend : Backend) (env : Env) :
    Sound (effect backend) (Allowed whole finished) Store.Consistent Guarantee
    (Holds whole finished c₀ old)
      (Begins c₀ old) (serve env) := by
  refine ⟨stable_holds,stable_begins,fun c call s hs hbegins => ?_⟩
  obtain ⟨now,request⟩ := call
  have hplain : ∀ a : Reply, request.governs = none → (∀ n, a ≠ .reconciled n) → ∀ t,
      Holds whole finished c₀ old c (now,request) (.ok a) t := by
    intro a hgoverns hkind t
    refine ⟨fun r _ hsome => ?_,fun n hn => absurd (Except.ok.inj hn) (hkind n)⟩
    rw [hgoverns] at hsome
    cases hsome
  have hgovern : ∀ (r : ResourceObject) t, (finished → t.Gone c r.logicalResourceId) →
      Holds whole finished c₀ old c (now,request) (.ok (.revision r)) t := by
    intro r t hgone
    refine ⟨fun r' hr _ hfinished => ?_,fun n hn => nomatch hn⟩
    cases hr
    exact hgone hfinished
  cases request with
  | persist draft blob =>
    exact safe_reply hs (guarded_persistResource rfl rfl hs hbegins.unborn
      (mayFail_of_not_reconcile rfl)) fun r t _ => hplain _ rfl (fun _ => Reply.noConfusion) t
  | supersede resourceId supersession blob =>
    exact safe_reply hs (guarded_supersedeResource hs hbegins.unborn hbegins.noEnvelope
      (mayFail_of_not_reconcile rfl)) fun r t _ => hplain _ rfl (fun _ => Reply.noConfusion) t
  | redact resourceId update =>
    exact safe_reply hs (guarded_governResource rfl rfl hs hbegins.unborn hbegins.noEnvelope
      (mayFail_of_not_reconcile rfl)) hgovern
  | purge resourceId update =>
    exact safe_reply hs (guarded_governResource rfl rfl hs hbegins.unborn hbegins.noEnvelope
      (mayFail_of_not_reconcile rfl)) hgovern
  | reconcile =>
    refine safe_reply hs (guarded_reconcileResourcePayloadPurges (T := c = c₀ ∧ whole = true) rfl
      (fun h hfail => hfail ⟨h.2,rfl⟩) hs fun h => hbegins.exist h.1) fun n t hleft => ?_
    exact ⟨fun _ hr => (nomatch hr),fun _ _ hc hwhole => hleft ⟨hc,hwhole⟩⟩
  | persistDerivedArtifact artifact =>
    exact safe_reply hs guarded_persistDerivedArtifact fun _ t _ =>
      hplain _ rfl (fun _ => Reply.noConfusion) t
  | persistDerivedArtifactWithBlob artifact data =>
    exact safe_reply hs (guarded_persistDerivedArtifactWithBlob hs (mayFail_of_not_reconcile rfl))
      fun _ t _ => hplain _ rfl (fun _ => Reply.noConfusion) t

variable (backend : Backend) (env : Env)

def served (events : List (Event (Timestamp × Request))) :
    Pool (Timestamp × Request) StoreOp Store (Except HirnDbError Reply) :=
  exec (Pool.step (effect backend) (serve env)) ⟨.empty,[]⟩ events

variable (whole finished) in
def Orderly (events : List (Event (Timestamp × Request))) : Prop :=
  Admissible (Pool.step (effect backend) (serve env)) (Meets (Allowed whole finished))
  ⟨.empty,[]⟩ events
  deriving Decidable

theorem begins_empty (c : ℕ) : Begins c₀ [] c Store.empty :=
  ⟨⟨by simp [Store.empty],by simp [Store.empty,Store.blobIds,Store.artifactIds]⟩,by simp [Store.empty],by simp⟩

variable {backend env}

theorem running_served (c₀ : ℕ) (h : Orderly whole finished backend env events) :
    Running (effect backend) (Allowed whole finished) Store.Consistent Guarantee
    (Holds whole finished c₀ [])
      (Begins c₀ []) (served backend env events) :=
  running_exec (sound_serve backend env) (running_nil Store.consistent_empty begins_empty) h

theorem left_of_reconciled {p : Pool (Timestamp × Request) StoreOp Store (Except HirnDbError Reply)}
    {after : List (Event (Timestamp × Request))} {n : ℕ}
    (hp : Running (effect backend) (Allowed true finished) Store.Consistent Guarantee
      (Holds true finished p.tasks.length []) (Begins p.tasks.length []) p)
    (h : Admissible (Pool.step (effect backend) (serve env)) (Meets (Allowed true finished)) p
    after) (hdone : (exec (Pool.step (effect backend) (serve env)) p after).tasks[p.tasks.length]? =
      some (call,some (.done (.ok (.reconciled n))))) :
    (exec (Pool.step (effect backend) (serve env)) p after).store.Left
    (p.store.envelopes.map (·.id)) [] := by
  have hrunning : Running (effect backend) (Allowed true finished) Store.Consistent Guarantee
      (Holds true finished p.tasks.length (p.store.envelopes.map (·.id)))
      (Begins p.tasks.length (p.store.envelopes.map (·.id))) p := by
    refine hp.mono (fun c call reply s hlt hholds => ⟨hholds.gone,fun n hn hc => absurd hc hlt.ne⟩)
      fun c hc => ?_
    have hbegins := hp.fresh c hc
    refine ⟨hbegins.unborn,hbegins.noEnvelope,fun _ id hid => ?_⟩
    obtain ⟨e,he,rfl⟩ := mem_map.mp hid
    exact ⟨e,he,rfl⟩
  have hend := running_exec (sound_serve backend env) hrunning h
  exact (hend.tasks _ _ _ hdone).left n rfl rfl rfl

theorem head_governed (hhead : s.head L = some h) (hhides : h.governanceState.hidesPayload) :
    s.Governed L := by
  obtain ⟨hmem,hL,hready⟩ := Store.head_mem hhead
  exact ⟨h,hmem,hready,hL,hhides⟩

theorem not_loaded (hgone : s.Gone c L) {id : ResourceId} (hof : s.Of id L)
    (blobIndex : ℕ) (data : Bytes) : (perform (effect backend) (loadResourceBlob id blobIndex)
    s).1 ≠ .ok data := by
  have hnone : s.blob? id blobIndex = none := by
    rw [Store.blob?,Option.map_eq_none_iff,find?_eq_none]
    intro b hb hfound
    have hid : b.resourceId = id := (of_decide_eq_true hfound).1
    exact (Store.not_hasPayload.mp hgone.1).1 b.resourceId (mem_map_of_mem hb) (hid ▸ hof)
  rw [loadResourceBlob,getResourceRaw,perform_bind,perform_scan]
  cases s.resourceRaw id with
  | none => simp
  | some r =>
    simp only [effectiveHeadForLogicalId,listResourceRevisionsForLogicalId,perform_bind,
      perform_scan,perform_pure]
    split
    · simp
    · rw [perform_loadResourceBlobUnchecked,hnone]
      simp

/-- In every run whose storage calls meet the condition, hidden payload is gone or about to go,
reconciliation leaves only later purges, and what was redacted or purged is not loaded again. -/
theorem purged_payloads_stay_gone (backend : Backend) (env : Env)
    (events : List (Event (Timestamp × Request))) :
    (Orderly false false backend env events →
      ∀ L h, (served backend env events).store.head L = some h →
      h.governanceState.hidesPayload = true → (served backend env events).store.HasPayload L →
        (served backend env events).store.PurgePending L) ∧
    (Orderly true false backend env events → ∀ before now after n,
      events = before++.start (now,.reconcile)::after →
      (served backend env events).tasks[(served backend env before).tasks.length]? =
        some ((now,.reconcile),some (.done (.ok (.reconciled n)))) →
      ∀ L h, (served backend env events).store.head L = some h →
      h.governanceState.hidesPayload = true →
        (served backend env events).store.HasPayload L →
        ∃ e ∈ (served backend env events).store.envelopes,
          e.state = .pending ∧ e.payload.purges = some L ∧
            ∀ e₀ ∈ (served backend env before).store.envelopes, e₀.id ≠ e.id) ∧
    (Orderly false true backend env events → ∀ (c : ℕ) now request r,
      (served backend env events).tasks[c]? = some ((now,request),some (.done (.ok (.revision r)))) →
      request.governs.isSome = true →
      ∀ id, (served backend env events).store.Of id r.logicalResourceId → ∀ blobIndex data,
        (perform (effect backend) (loadResourceBlob id blobIndex)
          (served backend env events).store).1 ≠ .ok data) := by
  refine ⟨fun h L head hhead hhides => ?_,?_,
    fun h c now request r hdone hgoverns id hof blobIndex data => ?_⟩
  · exact (running_served 0 h).holds.pending L (head_governed hhead hhides)
  · rintro h before now after n rfl hdone L head hhead hhides hrows
    obtain ⟨e,he,hpending,hpurges⟩ := (running_served 0 h).holds.pending L
      (head_governed hhead hhides) hrows
    obtain ⟨hbefore,hafter⟩ := admissible_append.mp h
    have happend : served backend env (before++.start (now,.reconcile)::after) =
        exec (Pool.step (effect backend) (serve env)) (served backend env before)
        (.start (now,.reconcile)::after) :=
      exec_append ..
    rw [happend] at he hdone
    have hleft := (left_of_reconciled (running_served _ hbefore) hafter hdone).2 e he hpending
      (by simp [hpurges])
    refine ⟨e,happend ▸ he,hpending,hpurges,fun e₀ he₀ heq => ?_⟩
    cases hleft (mem_map.mpr ⟨e₀,he₀,heq⟩)
  · exact not_loaded (((running_served 0 h).tasks c _ _ hdone).gone r rfl hgoverns rfl) hof
      blobIndex data

def calling (c : ℕ) (call : Timestamp × Request) (steps : ℕ) : List (Event (Timestamp × Request)) :=
  .start call::List.replicate steps (.step c true)

def revivedText : List (Event (Timestamp × Request)) :=
  List.flatten [calling 0 (0,.persist textDraft (some [65])) 4,calling 1 (1,.purge 0 ⟨none,none⟩) 10,
    calling 2 (2,.supersede 0 {unchanged with location := some (.blob 0)} (some [66])) 9]

/-- The new head is purged too, but its bytes are stored without an envelope. -/
theorem superseded_purge_keeps_payload :
    ((served .memory plainEnv revivedText).store.head 0).any (·.governanceState.hidesPayload) = true ∧
      (served .memory plainEnv revivedText).store.HasPayload 0 ∧
      ¬(served .memory plainEnv revivedText).store.PurgePending 0 := by
  decide

def retriedPurge : List (Event (Timestamp × Request)) :=
  List.flatten [calling 0 (0,.persist textDraft (some [65])) 4,calling 1 (1,.purge 0 ⟨none,none⟩) 6,
    [.step 1 false,.step 1 true,.step 1 true],calling 2 (2,.reconcile) 7,calling 3
    (3,.purge 0 ⟨none,none⟩) 2]

/-- Of two texts the purge of the first cannot delete the bytes, and while that is reconciled neither can
the purge of the second. -/
def overtakenReconcile : List (Event (Timestamp × Request)) :=
  List.flatten [.start (3,.reconcile)::[.step 3 true],calling 4 (4,.purge 1 ⟨none,none⟩) 6,
    [.step 4 false,.step 4 true,.step 4 true],List.replicate 6 (.step 3 true)]

def failedPurge : List (Event (Timestamp × Request)) :=
  List.flatten [calling 0 (0,.persist textDraft (some [65])) 4,
  calling 1 (1,.persist textDraft (some [66])) 4,
    calling 2 (2,.purge 0 ⟨none,none⟩) 6,[.step 2 false,.step 2 true,.step 2 true]]

/-- The purge that fails stays pending; the reconciliation leaves the later purge; and a purge that is
repeated returns when the bytes are gone. -/
theorem retried_purge_not_loaded :
    (served .memory plainEnv failedPurge).store.PurgePending 0 ∧
    (∃ e ∈ (served .memory plainEnv (failedPurge++overtakenReconcile)).store.envelopes,
      e.state = .pending ∧ e.payload.purges = some 1 ∧
        ∀ e₀ ∈ (served .memory plainEnv failedPurge).store.envelopes, e₀.id ≠ e.id) ∧
    Orderly false true .memory plainEnv retriedPurge ∧ ∀ blobIndex data,
      (perform (effect .memory) (loadResourceBlob 0 blobIndex)
      (served .memory plainEnv retriedPurge).store).1 ≠
        .ok data := by
  refine ⟨?_,?_,?_⟩
  · have horderly : Orderly false false .memory plainEnv failedPurge := by decide
    have hhead : ∃ h, (served .memory plainEnv failedPurge).store.head 0 = some h ∧
        h.governanceState.hidesPayload = true := ⟨_,rfl,rfl⟩
    obtain ⟨h,hhead,hhides⟩ := hhead
    exact (purged_payloads_stay_gone .memory plainEnv failedPurge).1 horderly 0 h hhead hhides
      (by decide)
  · have horderly : Orderly true false .memory plainEnv (failedPurge++overtakenReconcile) := by decide
    have hdone : ∃ n, (served .memory plainEnv (failedPurge++overtakenReconcile)).tasks[3]? =
        some ((3,.reconcile),some (.done (.ok (.reconciled n)))) := ⟨_,rfl⟩
    have hhead : ∃ h, (served .memory plainEnv (failedPurge++overtakenReconcile)).store.head 1 =
        some h ∧ h.governanceState.hidesPayload = true := ⟨_,rfl,rfl⟩
    obtain ⟨n,hdone⟩ := hdone
    obtain ⟨h,hhead,hhides⟩ := hhead
    exact (purged_payloads_stay_gone .memory plainEnv (failedPurge++overtakenReconcile)).2.1
      horderly failedPurge 3 _ n rfl hdone 1 h hhead hhides (by decide)
  · have horderly : Orderly false true .memory plainEnv retriedPurge := by decide
    have hdone : ∃ r, (served .memory plainEnv retriedPurge).tasks[3]? =
        some ((3,.purge 0 ⟨none,none⟩),some (.done (.ok (.revision r)))) ∧
        r.logicalResourceId = 0 := ⟨_,rfl,rfl⟩
    have hof : (served .memory plainEnv retriedPurge).store.Of 0 0 := by decide
    obtain ⟨r,hdone,hL⟩ := hdone
    exact ⟨horderly,(purged_payloads_stay_gone .memory plainEnv retriedPurge).2.2 horderly 3 _ _ r
      hdone rfl 0 (by rw [hL]; exact hof)⟩
end Hirn.Resources
