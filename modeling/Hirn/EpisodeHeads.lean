import Hirn.EpisodeCalls

/-! The head cache of episodes under calls that run side by side: when a cached head is the newest stored
revision, and when no read serves a chain that was deleted. -/
namespace Hirn.Engine
namespace EpisodeCalls
open Chains Calls Runs Revision List Prod Option Bool
open Aging (AgedEpisode)
variable {d n : ℕ}

/-- A step may be made: new episodes are new, revisions follow stored chains, a cached head is the
newest row, a deleted chain has no cached head, and a flush writes back no deleted chain and no row
newer than a cached head. -/
def State.Serves (s : State) : StoreOp → Prop
  | .appendFirst r => r.id ∉ s.born.map Prod.fst ∧ r.logicalMemoryId ∉ s.born.map Prod.snd
  | .appendNext _ _ r => r.id ∉ s.born.map Prod.fst ∧
      ∃ x ∈ s.episodes.rows, x.logicalMemoryId = r.logicalMemoryId
  | .cacheHead _ r => Newest s.episodes.rows r
  | .dropChain _ k => s.episodes.heads k = none
  | .dropRows _ rows => ∀ x ∈ s.episodes.rows, x.id ∈ rows.map (·.id) →
      s.episodes.heads x.logicalMemoryId ≠ some x
  | .appendRows _ rows => ∀ r ∈ rows, r.logicalMemoryId ∉ s.deleted.map Prod.snd ∧
      ∀ x, s.episodes.heads r.logicalMemoryId = some x → newer r x = false
  | _ => True

instance (s : State) (o : StoreOp) : Decidable (s.Serves o) :=
  match o with
  | .appendFirst _ | .appendNext _ _ _ => inferInstanceAs (Decidable (_ ∧ _))
  | .cacheHead _ r => inferInstanceAs (Decidable (Newest s.episodes.rows r))
  | .dropChain _ k => inferInstanceAs (Decidable (s.episodes.heads k = none))
  | .dropRows _ _ | .appendRows _ _ => inferInstanceAs (Decidable (∀ _ ∈ _, _))
  | .look | .outside | .evictHead _ | .access _ | .drain _ | .beginAccess _ _ | .readRows _ =>
    .isTrue trivial

/-- A step that succeeds may be made; what is done in memory does not fail. -/
def MayServe (_ : ℕ) (_ : Timestamp × Request) (s : State) (o : StoreOp) (succeeds : Bool) : Prop :=
  (succeeds = true → s.Serves o) ∧ (succeeds = false → o.inMemory = false)

instance (c : ℕ) (call : Timestamp × Request) (s : State) (o : StoreOp) (succeeds : Bool) :
    Decidable (MayServe c call s o succeeds) := inferInstanceAs (Decidable (_ ∧ _))

/-- A cached head is the newest row of its chain unless a call is about to cache a newer; deleted chains
have no rows. -/
structure State.Coherent (s : State) : Prop where
  stored : ∀ k x, s.episodes.heads k = some x → x ∈ s.episodes.rows ∧ x.logicalMemoryId = k
  newest : ∀ k x, s.episodes.heads k = some x → Newest s.episodes.rows x ∨ ∃ c, (c,k) ∈ s.owed
  born : ∀ r ∈ s.episodes.rows, (r.id,r.logicalMemoryId) ∈ s.born
  ids : (s.born.map Prod.fst).Nodup
  deleted : ∀ x ∈ s.deleted, x ∈ s.born ∧ ∀ r ∈ s.episodes.rows, r.logicalMemoryId ≠ x.2

/-- What one call may do to the others. -/
structure Yields (d : ℕ) (s t : State) : Prop where
  owed : ∀ x : ℕ × LogicalMemoryId, x.1 ≠ d → (x ∈ t.owed ↔ x ∈ s.owed)
  born : ∀ x ∈ s.born, x ∈ t.born
  deleted : ∀ x ∈ s.deleted, x ∈ t.deleted

/-- What a program knows when it makes a call. -/
def Knows (c : ℕ) (s : State) : StoreOp → Prop
  | .appendNext d _ _ => d = c
  | .cacheHead d _ => d = c
  | .dropChain id k => (id,k) ∈ s.born
  | .appendRows _ rows => ∀ r ∈ rows, (r.id,r.logicalMemoryId) ∈ s.born
  | _ => True

variable {s t : State} {c : ℕ} {r : AgedEpisode} {o : StoreOp} {k : LogicalMemoryId}

section
variable {x : AgedEpisode}

open Yields

theorem Yields.refl (d : ℕ) (s : State) : Yields d s s := ⟨fun _ _ => .rfl,fun _ h => h,fun _ h => h⟩

variable (hs : s.Coherent)
include hs

theorem State.Coherent.not_deleted (hr : r ∈ s.episodes.rows) :
    r.logicalMemoryId ∉ s.deleted.map snd := by
  intro h
  obtain ⟨x,hx,hk⟩ := mem_map.mp h
  exact (hs.deleted x hx).2 r hr hk.symm

theorem nodup_born (hr : r.id ∉ s.born.map fst) :
    ((s.born++[(r.id,r.logicalMemoryId)]).map fst).Nodup := by
  rw [map_append,map_singleton,← concat_eq_append,nodup_concat]
  exact ⟨hr,hs.ids⟩

theorem born_append : ∀ y ∈ s.episodes.rows++[r], (y.id,y.logicalMemoryId) ∈ s.born++
    [(r.id,r.logicalMemoryId)] := by
  intro y hy
  rcases mem_append.mp hy with hy | hy
  · exact mem_append_left _ (hs.born y hy)
  · rw [mem_singleton.mp hy]
    exact mem_append_right _ (mem_singleton_self _)

theorem deleted_append (hr : r.logicalMemoryId ∉ s.deleted.map snd) : ∀ x ∈ s.deleted,
    x ∈ s.born++[(r.id,r.logicalMemoryId)] ∧ ∀ y ∈ s.episodes.rows++[r], y.logicalMemoryId ≠ x.2 := by
  intro x hx
  refine ⟨mem_append_left _ (hs.deleted x hx).1,fun y hy hk => ?_⟩
  rcases mem_append.mp hy with hy | hy
  · exact (hs.deleted x hx).2 y hy hk
  · rw [mem_singleton.mp hy] at hk
    exact hr (mem_map.mpr ⟨x,hx,hk.symm⟩)

theorem coherent_appendFirst (h : s.Serves (.appendFirst r)) :
    (effect (.appendFirst r) s).Coherent ∧ Yields c s (effect (.appendFirst r) s) := by
  have hchain : ∀ x ∈ s.born, x.2 ≠ r.logicalMemoryId := fun x hx hk => h.2 (mem_map.mpr ⟨x,hx,hk⟩)
  have hdeleted : r.logicalMemoryId ∉ s.deleted.map snd := by
    intro hin
    obtain ⟨x,hx,hk⟩ := mem_map.mp hin
    exact hchain x (hs.deleted x hx).1 hk
  refine ⟨⟨fun k x hx => ?_,fun k x hx => ?_,born_append hs,nodup_born hs h.1,
    deleted_append hs hdeleted⟩,{refl c s with born := fun x hx => mem_append_left _ hx}⟩
  · exact (hs.stored k x hx).imp_left (mem_append_left _)
  · refine (hs.newest k x hx).imp_left fun hnewest => hnewest.append fun y hy hk => ?_
    rw [mem_singleton.mp hy] at hk
    exact absurd hk.symm (hchain _ (hs.born x hnewest.1))

theorem coherent_appendNext (h : s.Serves (.appendNext c x r)) :
    (effect (.appendNext c x r) s).Coherent ∧ Yields c s (effect (.appendNext c x r) s) := by
  obtain ⟨hid,y,hy,hchain⟩ := h
  refine ⟨⟨fun k x hx => ?_,fun k x hx => ?_,born_append hs,nodup_born hs hid,
    deleted_append hs (hchain ▸ hs.not_deleted hy)⟩,
    {refl c s with owed := fun x hx => ?_,born := fun x hx => mem_append_left _ hx}⟩
  · exact (hs.stored k x hx).imp_left (mem_append_left _)
  · by_cases hk : k = r.logicalMemoryId
    · exact .inr ⟨c,mem_append_right _ (mem_singleton.mpr (by rw [hk]))⟩
    · refine (hs.newest k x hx).imp (fun hnewest => hnewest.append fun z hz hzk => ?_) fun ⟨d,hd⟩ =>
        ⟨d,mem_append_left _ hd⟩
      rw [mem_singleton.mp hz] at hzk
      exact absurd ((hs.stored k x hx).2.symm.trans hzk.symm) hk
  · change x ∈ s.owed++[_] ↔ _
    rw [mem_append]
    exact or_iff_left fun h => hx (congrArg fst (mem_singleton.mp h))

theorem newest_cacheHead (h : Newest s.episodes.rows r)
    (hx : (s.episodes.cacheHead r).heads r.logicalMemoryId = some x) : Newest s.episodes.rows x := by
  unfold Store.cacheHead at hx
  split at hx
  next current hcurrent =>
    obtain ⟨hmem,hchain⟩ := hs.stored _ _ hcurrent
    split at hx
    · obtain rfl : r = x := some.inj (Store.heads_put_self.symm.trans hx)
      exact h
    next hnewer =>
      obtain rfl : current = x := some.inj (hcurrent.symm.trans hx)
      refine ⟨hmem,fun y hy hk => ?_⟩
      exact newer_eq_false_trans (h.2 y hy (hk.trans hchain)) (eq_false_iff.mpr hnewer)
  · obtain rfl : r = x := some.inj (Store.heads_put_self.symm.trans hx)
    exact h

theorem coherent_cacheHead (h : s.Serves (.cacheHead c r)) :
    (effect (.cacheHead c r) s).Coherent ∧ Yields c s (effect (.cacheHead c r) s) := by
  have hrows : (effect (.cacheHead c r) s).episodes.rows = s.episodes.rows := Store.rows_cacheHead
  refine ⟨⟨fun k x hx => ?_,fun k x hx => ?_,?_,hs.ids,?_⟩,{refl c s with owed := fun x hx => ?_}⟩
  · rw [hrows]
    rcases Store.cached_cacheHead hx with hx | ⟨rfl,rfl⟩
    · exact hs.stored k x hx
    · exact ⟨h.1,rfl⟩
  · rw [hrows]
    by_cases hk : k = r.logicalMemoryId
    · rw [hk] at hx
      exact .inl (newest_cacheHead hs h hx)
    · have hx : s.episodes.heads k = some x := by rwa [← Store.heads_cacheHead_of_ne (r := r) hk]
      refine (hs.newest k x hx).imp_right fun ⟨d,hd⟩ => ⟨d,mem_filter.mpr ⟨hd,?_⟩⟩
      simpa using fun _ => hk
  · rw [hrows]
    exact hs.born
  · rw [hrows]
    exact hs.deleted
  · change x ∈ s.owed.filter _ ↔ _
    rw [mem_filter]
    refine and_iff_left ?_
    simpa using fun heq => hx (congrArg fst heq)

theorem coherent_evictHead : (effect (.evictHead k) s).Coherent ∧
    Yields c s (effect (.evictHead k) s) :=
  ⟨{hs with stored := fun k' x hx => hs.stored k' x (Store.cached_evict hx).1,
            newest := fun k' x hx => hs.newest k' x (Store.cached_evict hx).1},{refl c s with}⟩

theorem coherent_dropChain {id : MemoryId}
    (h : s.Serves (.dropChain id k)) (hknows : Knows c s (.dropChain id k)) :
    (effect (.dropChain id k) s).Coherent ∧ Yields c s (effect (.dropChain id k) s) := by
  have hother : ∀ k' x, s.episodes.heads k' = some x → (x.logicalMemoryId != k) := by
    intro k' x hx
    rw [(hs.stored k' x hx).2,bne_iff_ne]
    rintro rfl
    cases h.symm.trans hx
  have hsub : ∀ y ∈ (effect (.dropChain id k) s).episodes.rows, y ∈ s.episodes.rows ∧
    y.logicalMemoryId ≠ k :=
    fun y hy => by
      obtain ⟨hmem,hne⟩ := mem_filter.mp hy
      exact ⟨hmem,bne_iff_ne.mp hne⟩
  refine ⟨⟨fun k' x hx => ?_,fun k' x hx => ?_,fun y hy => hs.born y (hsub y hy).1,hs.ids,
    fun x hx => ?_⟩, {refl c s with deleted := fun x hx => mem_append_left _ hx}⟩
  · exact ⟨mem_filter.mpr ⟨(hs.stored k' x hx).1,hother k' x hx⟩,(hs.stored k' x hx).2⟩
  · exact (hs.newest k' x hx).imp_left fun hnewest => hnewest.filter (hother k' x hx)
  · rcases mem_append.mp hx with hx | hx
    · exact ⟨(hs.deleted x hx).1,fun y hy => (hs.deleted x hx).2 y (hsub y hy).1⟩
    · rw [mem_singleton.mp hx]
      exact ⟨hknows,fun y hy => (hsub y hy).2⟩

variable {rows : List AgedEpisode}

theorem coherent_dropRows (h : s.Serves (.dropRows d rows)) :
    (effect (.dropRows d rows) s).Coherent ∧ Yields c s (effect (.dropRows d rows) s) := by
  have hkept : ∀ k x, s.episodes.heads k = some x → (!(rows.map (·.id)).contains x.id) := by
    intro k x hx
    obtain ⟨hmem,hk⟩ := hs.stored k x hx
    rw [not_eq_true',eq_false_iff,ne_eq,contains_iff_mem]
    exact fun hin => h x hmem hin (hk ▸ hx)
  refine ⟨⟨fun k x hx => ?_,fun k x hx => ?_,fun y hy => hs.born y (mem_of_mem_filter hy),hs.ids,
    fun x hx => ?_⟩, {refl c s with}⟩
  · exact (hs.stored k x hx).imp_left fun hmem => mem_filter.mpr ⟨hmem,hkept k x hx⟩
  · exact (hs.newest k x hx).imp_left fun hnewest => hnewest.filter (hkept k x hx)
  · exact ⟨(hs.deleted x hx).1,fun y hy => (hs.deleted x hx).2 y (mem_of_mem_filter hy)⟩

theorem coherent_appendRows (h : s.Serves (.appendRows d rows))
    (hknows : Knows c s (.appendRows d rows)) :
    (effect (.appendRows d rows) s).Coherent ∧ Yields c s (effect (.appendRows d rows) s) := by
  refine ⟨⟨fun k x hx => ?_,fun k x hx => ?_,fun y hy => ?_,hs.ids,fun x hx =>
    ⟨(hs.deleted x hx).1,fun y hy hk => ?_⟩⟩, {refl c s with}⟩
  · exact (hs.stored k x hx).imp_left (mem_append_left _)
  · refine (hs.newest k x hx).imp_left fun hnewest => hnewest.append fun y hy hk => (h y hy).2 x ?_
    have hchain : y.logicalMemoryId = k := hk.trans (hs.stored k x hx).2
    rw [hchain]
    exact hx
  · exact (mem_append.mp hy).elim (hs.born y) (hknows y)
  · rcases mem_append.mp hy with hy | hy
    · exact (hs.deleted x hx).2 y hy hk
    · exact (h y hy).1 (mem_map.mpr ⟨x,hx,hk.symm⟩)

theorem coherent_effect (h : s.Serves o) (hknows : Knows c s o) :
    (effect o s).Coherent ∧ Yields c s (effect o s) := by
  cases o with
  | appendFirst r => exact coherent_appendFirst hs h
  | appendNext d x r =>
    obtain rfl : d = c := hknows
    exact coherent_appendNext hs h
  | cacheHead d r =>
    obtain rfl : d = c := hknows
    exact coherent_cacheHead hs h
  | evictHead k => exact coherent_evictHead hs
  | dropChain id k => exact coherent_dropChain hs h hknows
  | dropRows d rows => exact coherent_dropRows hs h
  | appendRows d rows => exact coherent_appendRows hs h hknows
  | look => exact ⟨hs,refl c s⟩
  | outside => exact ⟨hs,refl c s⟩
  | readRows ids => exact ⟨hs,refl c s⟩
  | access id => exact ⟨{hs with},{refl c s with}⟩
  | drain d => exact ⟨{hs with},{refl c s with}⟩
  | beginAccess d id => exact ⟨{hs with},{refl c s with}⟩
end

/-- The call owes no head to the cache, and the chains of a list are deleted. -/
def State.Settled (c : ℕ) (ks : List LogicalMemoryId) (s : State) : Prop :=
  (∀ x ∈ s.owed, x.1 ≠ c) ∧ ∀ k ∈ ks, k ∈ s.deleted.map Prod.snd

def State.Caching (c : ℕ) (ks : List LogicalMemoryId) (k : LogicalMemoryId) (s : State) : Prop :=
  (∀ x ∈ s.owed, x.1 = c → x.2 = k) ∧ ∀ k ∈ ks, k ∈ s.deleted.map Prod.snd

def State.Seen (ks : List LogicalMemoryId) (r : AgedEpisode) (s : State) : Prop :=
  (r.id,r.logicalMemoryId) ∈ s.born ∧ r.logicalMemoryId ∉ ks

variable {call : Timestamp × Request} {ks : List LogicalMemoryId}

theorem Yields.mem_deleted (h : Yields d s t) (hks : ∀ k ∈ ks, k ∈ s.deleted.map snd) :
    ∀ k ∈ ks, k ∈ t.deleted.map snd := fun k hk => map_subset _ h.deleted (hks k hk)

theorem stable_settled : Stable State.Coherent Yields c (State.Settled c ks) :=
  fun _ _ _ hd _ h hyields =>
  ⟨fun x hx hc => h.1 x ((hyields.owed x (hc.trans_ne hd.symm)).mp hx) hc,hyields.mem_deleted h.2⟩

theorem stable_caching : Stable State.Coherent Yields c (State.Caching c ks k) :=
  fun _ _ _ hd _ h hyields =>
    ⟨fun x hx hc => h.1 x ((hyields.owed x (hc.trans_ne hd.symm)).mp hx) hc,hyields.mem_deleted h.2⟩

theorem lasting_seen : Lasting State.Coherent Yields (State.Seen ks r) :=
  fun _ _ _ _ h hyields => ⟨hyields.born _ h.1,h.2⟩

theorem lasting_all_seen {rs : List AgedEpisode} :
    Lasting State.Coherent Yields fun s => ∀ r ∈ rs, s.Seen ks r :=
  fun d s t hs h hyields r hr => lasting_seen d s t hs (h r hr) hyields

theorem State.Coherent.seen (hs : s.Coherent) (h : s.Settled c ks) (hr : r ∈ s.episodes.rows) :
    s.Seen ks r := ⟨hs.born r hr,fun hk => hs.not_deleted hr (h.2 _ hk)⟩

/-- An action keeps to what it may do, and an error leaves no head to cache. -/
abbrev Serving (c : ℕ) (call : Timestamp × Request) (ks : List LogicalMemoryId)
    (F : α → State → Prop) (m : Act α) (s : State) : Prop :=
  Guarded effect (MayServe c call) State.Coherent Yields c F (State.Settled c ks) m s

abbrev Settling (c : ℕ) (call : Timestamp × Request) (ks : List LogicalMemoryId) (m : Act α)
    (s : State) : Prop :=
  Serving c call ks (fun _ => State.Settled c ks) m s

theorem serving_look (hs : s.Coherent) (h : s.Settled c ks) :
    Serving c call ks (fun a t => t.Settled c ks ∧ a = f t) (look f) s :=
  guarded_map hs (guarded_request (State.Settled c ks) h stable_settled
    (fun t ht hsettled _ => ⟨ht,Yields.refl c t,hsettled,rfl⟩) fun _ _ hsettled _ => hsettled)

theorem serving_write (hs : s.Coherent) (h : s.Settled c ks) (hA : A s)
    (hstable : Stable State.Coherent Yields c A)
    (hknows : ∀ t, t.Coherent → A t → t.Serves o → Knows c t o := by exact fun _ _ _ _ => trivial)
    (howed : ∀ t, ∀ x ∈ (effect o t).owed, x.1 = c → x ∈ t.owed := by exact fun _ _ hx _ => hx) :
    Settling c call ks (write o) s := by
  refine guarded_map hs (guarded_request (fun t => t.Settled c ks ∧ A t) ⟨h,hA⟩
    (stable_settled.and hstable) (fun t ht hnow hok => ?_) fun _ _ hnow _ => hnow.1)
  have hserves := hok.1 rfl
  obtain ⟨hnext,hyields⟩ := coherent_effect ht hserves (hknows t ht hnow.2 hserves)
  exact ⟨hnext,hyields,fun x hx hc => hnow.1.1 x (howed t x hx hc) hc,hyields.mem_deleted hnow.1.2⟩

theorem stable_true : Stable State.Coherent Yields c fun _ => True := fun _ _ _ _ _ _ _ => trivial

section
variable (hs : s.Coherent)
include hs

theorem serving_outside (h : s.Settled c ks) : Settling c call ks (write .outside) s :=
  serving_write hs h trivial stable_true

theorem serving_cacheHead (h : s.Settled c ks) : Settling c call ks (write (.cacheHead c r)) s :=
  serving_write hs h trivial stable_true (fun _ _ _ _ => rfl) fun _ _ hx _ => mem_of_mem_filter hx

theorem serving_evictHead (h : s.Settled c ks) : Settling c call ks (write (.evictHead k)) s :=
  serving_write hs h trivial stable_true

theorem serving_attempt (hm : Settling c call ks m s)
    (hg : ∀ x t, t.Coherent → t.Settled c ks → Serving c call ks G (g x) t) :
    Serving c call ks G (attempt m >>= g) s :=
  guarded_attempt_bind hs hm (fun _ t ht h => hg _ t ht h) fun _ t ht h => hg _ t ht h

theorem serving_undoing (hm : Serving c call ks (fun _ => F) m s) :
    Serving c call ks (fun _ => F) (undoing m) s := by
  refine guarded_attempt_bind hs hm (fun _ t _ h => h) fun e t ht h => ?_
  exact serving_attempt ht (serving_outside ht h) fun _ u _ h => h
end

theorem serving_readEpisodicRecord (id : MemoryId) (hs : s.Coherent) (h : s.Settled c ks) :
    Serving c call ks (fun r t => t.Settled c ks ∧ t.Seen ks r ∧ r.id = id)
    (readEpisodicRecord id) s := by
  refine guarded_bind hs (serving_look hs h) fun found t ht hnow => ?_
  obtain ⟨hsettled,rfl⟩ := hnow
  cases hfound : t.episodes.find id with
  | none => exact hsettled
  | some r =>
    obtain ⟨hr,hid⟩ := Store.find_eq_some hfound
    exact ⟨hsettled,ht.seen hsettled hr,hid⟩

variable (env : Env)

theorem serving_episodicHeadForLogicalId (k : LogicalMemoryId) (hs : s.Coherent) (h : s.Settled c ks) :
    Serving c call ks (fun r t => t.Settled c ks ∧ t.Seen ks r)
    (episodicHeadForLogicalId env c k) s := by
  refine guarded_bind hs (serving_look hs h) fun cached t ht hnow => ?_
  obtain ⟨hsettled,rfl⟩ := hnow
  cases hcached : t.episodes.heads k with
  | some r => exact ⟨hsettled,ht.seen hsettled (ht.stored k r hcached).1⟩
  | none =>
    refine guarded_bind ht (serving_look ht hsettled) fun loaded u hu hnow => ?_
    obtain ⟨hsettled,rfl⟩ := hnow
    cases hloaded : u.episodes.loadHead env.settings.backend k with
    | some r =>
      have hseen := hu.seen hsettled (Store.mem_of_loadHead hloaded).1
      exact guarded_bind hu (guarded_lasting lasting_seen hu hseen (serving_cacheHead hu hsettled))
        fun _ v _ h => h
    | none => exact guarded_bind hu (serving_evictHead hu hsettled) fun _ v _ h => h

theorem serving_loadLiveHeads (cached : List AgedEpisode) (missing : List LogicalMemoryId)
    (hs : s.Coherent) (h : s.Settled c ks) (hcached : ∀ r ∈ cached, s.Seen ks r) :
    Serving c call ks (fun rs t => t.Settled c ks ∧ ∀ r ∈ rs, t.Seen ks r)
    (loadLiveHeads c cached missing) s := by
  refine guarded_bind hs (guarded_lasting lasting_all_seen hs hcached (serving_look hs h))
    fun rows t ht hnow => ?_
  obtain ⟨⟨h,rfl⟩,hcached⟩ := hnow
  have hall : ∀ r ∈ cached++liveHeads (missing.dedup.filterMap (Store.collapse (t.episodes.rows.filter fun r =>
      missing.contains r.logicalMemoryId))), t.Seen ks r := by
    intro r hr
    rcases mem_append.mp hr with hr | hr
    · exact hcached r hr
    · obtain ⟨k,-,hk⟩ := mem_filterMap.mp (mem_of_mem_filter hr)
      exact ht.seen h (mem_of_mem_filter (newest_of_collapse hk).1.1)
  refine guarded_bind ht (guarded_lasting lasting_all_seen ht hall
    (guarded_forEach (A := State.Settled c ks)
    (fun _ _ u hu h => serving_cacheHead hu h) ht h)) fun _ u hu hnow => ?_
  exact guarded_bind hu (guarded_lasting lasting_all_seen hu hnow.2
    (guarded_forEach (A := State.Settled c ks)
    (fun _ _ v hv h => serving_evictHead hv h) hu hnow.1)) fun _ v _ h => h

theorem serving_liveEpisodicHeadsForLogicalIds (ids : List LogicalMemoryId) (hs : s.Coherent)
    (h : s.Settled c ks) :
    Serving c call ks (fun rs t => t.Settled c ks ∧ ∀ r ∈ rs, t.Seen ks r)
    (liveEpisodicHeadsForLogicalIds c ids) s := by
  refine guarded_bind hs (serving_look hs h) fun cached t ht hnow => ?_
  obtain ⟨h,rfl⟩ := hnow
  have hcached : ∀ r ∈ liveHeads (ids.filterMap t.episodes.heads), t.Seen ks r := by
    intro r hr
    obtain ⟨k,-,hk⟩ := mem_filterMap.mp (mem_of_mem_filter hr)
    exact ht.seen h (ht.stored k r hk).1
  split
  · exact ⟨h,hcached⟩
  · exact serving_loadLiveHeads _ _ ht h hcached

theorem serving_episodicEditTarget (id : MemoryId) (hs : s.Coherent) (h : s.Settled c ks) :
    Settling c call ks (episodicEditTarget env c id) s := by
  refine guarded_bind hs (serving_readEpisodicRecord id hs h) fun record t ht h => ?_
  refine guarded_bind ht (serving_episodicHeadForLogicalId env _ ht h.1) fun head u _ h => ?_
  exact guarded_require_bind h.1 fun _ => h.1

theorem serving_appendNext (hs : s.Coherent) (h : s.Settled c ks) :
    Serving c call ks (fun _ => State.Caching c ks r.logicalMemoryId)
    (write (.appendNext c x r)) s := by
  refine guarded_map hs (guarded_request (State.Settled c ks) h stable_settled
    (fun t ht hnow hok => ?_) fun _ _ hnow _ => hnow)
  obtain ⟨hnext,hyields⟩ := coherent_appendNext (c := c) ht (hok.1 rfl)
  refine ⟨hnext,hyields,fun x hx hc => ?_,hyields.mem_deleted hnow.2⟩
  rcases mem_append.mp hx with hx | hx
  · exact absurd hc (hnow.1 x hx)
  · exact congrArg snd (mem_singleton.mp hx)

theorem serving_cacheNext (hs : s.Coherent) (h : s.Caching c ks r.logicalMemoryId) :
    Settling c call ks (write (.cacheHead c r)) s := by
  refine guarded_map hs (guarded_request (State.Caching c ks r.logicalMemoryId) h stable_caching
    (fun t ht hnow hok => ?_) fun _ _ _ hfails => ?_)
  · obtain ⟨hnext,hyields⟩ := coherent_cacheHead (c := c) ht (hok.1 rfl)
    refine ⟨hnext,hyields,fun x hx hc => ?_,hyields.mem_deleted hnow.2⟩
    obtain ⟨hx,hne⟩ := mem_filter.mp hx
    exact bne_iff_ne.mp hne (Prod.ext hc (hnow.1 x hx hc))
  · cases hfails.2 rfl

theorem serving_reembedded (current next : AgedEpisode) (hs : s.Coherent) (h : s.Settled c ks) :
    Settling c call ks (reembedded env current next) s := by
  unfold reembedded
  split
  · exact h
  · exact guarded_bind hs (serving_outside hs h) fun _ t _ h => h

variable (now : Timestamp)

theorem serving_appendEpisodicSuccessor (i : ℕ) (current : AgedEpisode) (edit : Edit)
    (hs : s.Coherent) (h : s.Settled c ks) :
    Settling c call ks (appendEpisodicSuccessor env c now i current edit) s := by
  refine guarded_bind hs (serving_reembedded env _ _ hs h) fun next t ht h => ?_
  refine guarded_bind ht (serving_outside ht h) fun _ u hu h => ?_
  refine guarded_bind hu (serving_undoing hu (serving_outside hu h)) fun _ v hv h => ?_
  have hlinked : Settling c call ks (applySimilarityEdges next) v := by
    unfold applySimilarityEdges
    split
    · exact serving_undoing hv (serving_outside hv h)
    · exact h
  refine guarded_bind hv hlinked fun _ w hw h => ?_
  refine guarded_bind hw (serving_undoing hw (serving_appendNext hw h)) fun _ x hx h => ?_
  refine guarded_bind hx (serving_cacheNext hx h) fun _ y hy h => ?_
  exact serving_attempt hy (serving_outside hy h) fun _ z _ h => h

theorem serving_remember (record : AgedEpisode) (hs : s.Coherent) (h : s.Settled c ks) :
    Settling c call ks (remember env c now record) s := by
  refine guarded_raise_bind h (guarded_bind hs (serving_look hs h) fun admission t ht h => ?_)
  obtain ⟨h,-⟩ := h
  cases admission with
  | refuse error => exact h
  | merge target =>
    refine guarded_bind ht (serving_episodicEditTarget env target ht h) fun current u hu h => ?_
    exact guarded_require_bind h fun _ => serving_appendEpisodicSuccessor env now 0 current _ hu h
  | accept =>
    refine guarded_bind ht (serving_outside ht h) fun _ u hu h => ?_
    refine guarded_bind hu (serving_outside hu h) fun _ u hu h => ?_
    refine guarded_bind hu (serving_undoing hu (serving_outside hu h)) fun _ u hu h => ?_
    have happend : Settling c call ks (write (.appendFirst record)) u :=
      serving_write hu h trivial stable_true
    refine guarded_bind hu (serving_undoing hu happend) fun _ u hu h => ?_
    exact serving_attempt hu (serving_outside hu h) fun _ v hv h => serving_outside hv h

theorem serving_archiveEpisode (id : MemoryId) (hs : s.Coherent) (h : s.Settled c ks) :
    Settling c call ks (archiveEpisode env c now id) s := by
  refine guarded_bind hs (serving_episodicEditTarget env id hs h) fun head t ht h => ?_
  exact guarded_raise_bind h (serving_appendEpisodicSuccessor env now 0 head _ ht h)

theorem serving_updateEpisode (id : MemoryId) (f : EpisodicBody → EpisodicBody) (hs : s.Coherent)
    (h : s.Settled c ks) : Settling c call ks (updateEpisode env c now id f) s :=
  guarded_bind hs (serving_episodicEditTarget env id hs h) fun head _ ht h =>
    serving_appendEpisodicSuccessor env now 0 head _ ht h

theorem serving_decayEach (i : ℕ) (rs : List AgedEpisode) (hs : s.Coherent)
    (h : s.Settled c ks) : Settling c call ks (decayEach env c now i rs) s := by
  induction rs generalizing i s with
  | nil => exact h
  | cons r rest ih =>
    have hone : Settling c call ks (decayOne env c now i r) s := by
      unfold decayOne
      split
      · exact serving_appendEpisodicSuccessor env now i r _ hs h
      · exact h
    exact guarded_bind hs hone fun _ t ht h => ih (i+1) ht h

theorem serving_decayMemories (hs : s.Coherent) (h : s.Settled c ks) :
    Settling c call ks (decayMemories env c now) s :=
  guarded_bind hs (serving_look hs h) fun rs _ ht h => serving_decayEach env now 0 rs ht h.1

theorem serving_deleteEpisode (id : MemoryId) (hs : s.Coherent) (h : s.Settled c ks) :
    Serving c call ks (fun _ t => t.Settled c ks ∧ id ∈ t.deleted.map fst)
    (deleteEpisode env c id) s := by
  refine guarded_bind hs (serving_readEpisodicRecord id hs h) fun record t ht h => ?_
  obtain ⟨h,hseen,rfl⟩ := h
  refine guarded_bind ht (guarded_lasting lasting_seen ht hseen
    (serving_episodicHeadForLogicalId env _ ht h)) fun head u hu h => ?_
  obtain ⟨⟨h,-⟩,hseen⟩ := h
  refine guarded_raise_bind h ?_
  refine guarded_bind hu (guarded_lasting lasting_seen hu hseen (serving_look hu h))
    fun history v hv h => ?_
  obtain ⟨⟨h,-⟩,hseen⟩ := h
  refine guarded_bind hv (guarded_lasting lasting_seen hv hseen
    (guarded_forEach (A := State.Settled c ks)
    (fun _ _ w hw h => serving_attempt hw (serving_outside hw h) fun _ x _ h => h) hv h))
    fun _ w hw h => ?_
  refine guarded_map hw (guarded_request (fun x => x.Settled c ks ∧ x.Seen ks record) h
    (stable_settled.and lasting_seen.stable) (fun x hx hnow hok => ?_) fun _ _ hnow _ => hnow.1)
  obtain ⟨hnext,hyields⟩ := coherent_effect (c := c) hx (hok.1 rfl) hnow.2.1
  refine ⟨hnext,hyields,⟨hnow.1.1,hyields.mem_deleted hnow.1.2⟩,?_⟩
  exact mem_map.mpr ⟨_,mem_append_right _ (mem_singleton_self _),rfl⟩

theorem serving_readEpisodicRecordsBatch (chunks : List (List MemoryId)) (hs : s.Coherent)
    (h : s.Settled c ks) :
    Serving c call ks (fun rs t => t.Settled c ks ∧ ∀ r ∈ rs, t.Seen ks r)
    (readEpisodicRecordsBatch chunks) s := by
  induction chunks generalizing s with
  | nil => exact ⟨h,fun _ hr => nomatch hr⟩
  | cons ids rest ih =>
    refine guarded_bind hs (guarded_request (F := fun u t => t.Settled c ks ∧
      ∀ r ∈ ids.filterMap u.episodes.find,
      t.Seen ks r) (State.Settled c ks) h stable_settled
      (fun t ht h _ => ⟨ht,Yields.refl c t,h,fun r hr => ?_⟩) fun _ _ h _ => h) fun u t ht h => ?_
    · obtain ⟨i,-,hi⟩ := mem_filterMap.mp hr
      exact ht.seen h (Store.find_eq_some hi).1
    · refine guarded_bind ht (guarded_lasting lasting_all_seen ht h.2 (ih ht h.1))
        fun others v _ h => ?_
      exact ⟨h.1.1,fun r hr => (mem_append.mp hr).elim (h.2 r) (h.1.2 r)⟩

theorem key_recordAccesses (r : AgedEpisode) (n : ℕ) :
    (recordAccesses now r n).id = r.id ∧ (recordAccesses now r n).logicalMemoryId =
    r.logicalMemoryId := by
  induction n with
  | zero => exact ⟨rfl,rfl⟩
  | succ n ih => exact ih

theorem serving_applyEpisodeAccessCounts (counts : List (MemoryId × ℕ)) (hs : s.Coherent)
    (h : s.Settled c ks) : Settling c call ks (applyEpisodeAccessCounts c now counts) s := by
  unfold applyEpisodeAccessCounts
  split
  · exact h
  · refine guarded_bind hs (serving_readEpisodicRecordsBatch _ hs h) fun found t ht h => ?_
    obtain ⟨h,hseen⟩ := h
    split
    · exact h
    · refine guarded_bind ht (guarded_lasting lasting_all_seen ht hseen
        (guarded_forEach (A := State.Settled c ks)
        (fun rows _ u hu h => serving_write hu h trivial stable_true) ht h))
        fun _ u hu h => ?_
      refine serving_write hu h.1 h.2 lasting_all_seen.stable (fun v _ hseen _ r hr => ?_)
        fun _ _ hx _ => hx
      obtain ⟨x,hx,rfl⟩ := mem_map.mp hr
      rw [(key_recordAccesses now x _).1,(key_recordAccesses now x _).2]
      exact (hseen x hx).1

def Served (events : List (Event (Timestamp × Request))) : Prop :=
  Admissible (Pool.stepWith effect State.restart (serve env)) (Meets MayServe) ⟨State.empty,[]⟩ events
  deriving Decidable

/-- An answer leaves no head to cache, the chain deleted, and serves none of the given chains. -/
def Answered (ks : List LogicalMemoryId) (c : ℕ) (request : Request) (a : Answer) (s : State) : Prop :=
  s.Settled c ks ∧ (∀ id, request = .delete id → id ∈ s.deleted.map Prod.fst) ∧
  ∀ r ∈ a.served, r.logicalMemoryId ∉ ks

variable {env}

theorem serving_done {request : Request} (hs : s.Coherent) (hrequest : ∀ id, request ≠ .delete id)
    (hm : Settling c call ks m s) : Serving c call ks (Answered ks c request)
    ((fun _ => Answer.done) <$> m) s :=
  guarded_map hs (guarded_mono hs hm (fun _ _ _ h =>
  ⟨h,fun id hid => absurd hid (hrequest id),fun _ hr => nomatch hr⟩)
    fun _ _ h => h)

theorem serving_answer (now : Timestamp) (request : Request) (hs : s.Coherent) (h : s.Settled c ks) :
    Serving c call ks (Answered ks c request) (answer env c now request) s := by
  cases request with
  | remember record => exact serving_done hs nofun (serving_remember env now record hs h)
  | archive id => exact serving_done hs nofun (serving_archiveEpisode env now id hs h)
  | update id f => exact serving_done hs nofun (serving_updateEpisode env now id f hs h)
  | decay => exact serving_done hs nofun (serving_decayMemories env now hs h)
  | delete id =>
    refine guarded_map hs (guarded_mono hs (serving_deleteEpisode env id hs h) (fun _ t _ h => ?_)
      fun _ _ h => h)
    refine ⟨h.1,fun id' hid => ?_,fun _ hr => nomatch hr⟩
    cases hid
    exact h.2
  | access id =>
    exact serving_done hs nofun (serving_write hs h trivial stable_true)
  | flush =>
    refine serving_done hs nofun (guarded_bind hs (guarded_request (F := fun _ => State.Settled c ks)
      (State.Settled c ks) h stable_settled (fun t ht h _ => ?_) fun _ _ h _ => h)
      fun _ t ht h => serving_applyEpisodeAccessCounts now _ ht h)
    exact ⟨{ht with},{Yields.refl c t with},h⟩
  | recordAccess id =>
    refine serving_done hs nofun (guarded_bind hs (serving_write hs h trivial stable_true)
      fun _ t ht h => serving_applyEpisodeAccessCounts now _ ht h)
  | get id =>
    refine guarded_map hs (guarded_mono hs (serving_readEpisodicRecord id hs h) (fun r t _ h => ?_)
      fun _ _ h => h)
    exact ⟨h.1,nofun,forall_mem_singleton.mpr h.2.1.2⟩
  | head k =>
    refine guarded_map hs (guarded_mono hs (serving_episodicHeadForLogicalId env k hs h)
      (fun r t _ h => ?_) fun _ _ h => h)
    exact ⟨h.1,nofun,forall_mem_singleton.mpr h.2.2⟩
  | liveHeads ids =>
    refine guarded_map hs (guarded_mono hs (serving_liveEpisodicHeadsForLogicalIds ids hs h)
      (fun rs t _ h => ?_) fun _ _ h => h)
    exact ⟨h.1,nofun,fun x hx => (h.2 x hx).2⟩

/-- The calls from `n` on are asked to serve nothing of the given chains. -/
def asked (n : ℕ) (ks : List LogicalMemoryId) (c : ℕ) : List LogicalMemoryId :=
  if n ≤ c then ks else []

def Ended (n : ℕ) (ks : List LogicalMemoryId) (c : ℕ) (call : Timestamp × Request)
    (reply : Except HirnError Answer)
    (s : State) : Prop := Ends (Answered (asked n ks c) c call.2)
    (State.Settled c (asked n ks c)) reply s

theorem stable_ended (n : ℕ) (c : ℕ) (call : Timestamp × Request) (reply : Except HirnError Answer) :
    Stable State.Coherent Yields c (Ended n ks c call reply) := by
  intro d s t hd hs h hyields
  cases reply with
  | error e => exact stable_settled d s t hd hs h hyields
  | ok a =>
    exact ⟨stable_settled d s t hd hs h.1 hyields,
      fun id hid => map_subset _ hyields.deleted (h.2.1 id hid),h.2.2⟩

theorem sound_serving (n : ℕ) : Sound effect MayServe State.Coherent Yields (Ended n ks)
    (fun c => State.Settled c (asked n ks c)) (serve env) :=
  ⟨stable_ended n,fun _ => stable_settled,fun _ call _ hs h => serving_answer call.1 call.2 hs h⟩

theorem State.Settled.restart (h : s.Settled c ks) : s.restart.Settled c ks :=
  ⟨(fun _ hx => nomatch hx),h.2⟩

theorem State.Coherent.restart (hs : s.Coherent) : s.restart.Coherent :=
  ⟨(fun _ _ hx => nomatch hx),(fun _ _ hx => nomatch hx),hs.born,hs.ids,hs.deleted⟩

theorem outlives_restart (n : ℕ) : Outlives State.Coherent (Ended n ks)
    (fun c => State.Settled c (asked n ks c)) State.restart fun _ => True := by
  refine ⟨fun s hs _ => hs.restart,fun c call reply s _ _ h => ?_,fun c s _ _ h => h.restart⟩
  cases reply with
  | error e => exact State.Settled.restart h
  | ok a => exact ⟨h.1.restart,h.2.1,h.2.2⟩

/-- The calls run well, and no stopped one owes a head to the cache. -/
structure Sane (n : ℕ) (ks : List LogicalMemoryId) (p : Episodes) : Prop where
  running : Running effect MayServe State.Coherent Yields (Ended n ks)
    (fun c => State.Settled c (asked n ks c)) p
  stopped : ∀ c call, p.tasks[c]? = some (call,none) → p.store.Settled c []

theorem Sane.step (h : Sane n ks p) (hok : Meets MayServe p e) :
    Sane n ks (p.stepWith effect State.restart (serve env) e) :=
  ⟨running_stepWith (sound_serving n) (outlives_restart n) p e hok (fun _ => trivial) h.running,
    stopped_stepWith (Q := fun c => State.Settled c []) (fun _ => stable_settled) h.running e hok
      (fun _ _ => ⟨nofun,nofun⟩) h.stopped⟩

theorem Sane.exec (hp : Sane n ks p)
    (h : Admissible (Pool.stepWith effect State.restart (serve env)) (Meets MayServe) p events) :
    Sane n ks (exec (Pool.stepWith effect State.restart (serve env)) p events) :=
  invariant (I := Sane n ks) (fun _ _ hok hp => hp.step hok) hp h

theorem coherent_empty : State.empty.Coherent := by
  constructor <;> simp [State.empty,Store.empty]

theorem sane_after (h : Served env events) : Sane 0 [] (after env events) := by
  refine Sane.exec ⟨?_,by simp⟩ h
  exact running_nil coherent_empty fun c => ⟨nofun,fun k hk => by simp [asked] at hk⟩

theorem Sane.not_owed (h : Sane n ks p) (hquiescent : Quiescent p) (x : ℕ × LogicalMemoryId) :
    x ∉ p.store.owed := by
  intro hx
  rcases lt_or_ge x.1 p.tasks.length with hlt | hge
  · rcases hquiescent _ (getElem_mem hlt) with hnone | ⟨reply,hreply⟩
    · exact (h.stopped x.1 _ (List.getElem?_eq_some_iff.mpr ⟨hlt,Prod.ext rfl hnone⟩)).1 x hx rfl
    · have hended := h.running.tasks x.1 p.tasks[x.1].1 (.done reply)
        (List.getElem?_eq_some_iff.mpr ⟨hlt,Prod.ext rfl hreply⟩)
      cases reply with
      | error e => exact hended.1 x hx rfl
      | ok a => exact hended.1.1 x hx rfl
  · exact (h.running.fresh x.1 hge).1 x hx rfl

theorem Sane.later (h : Sane 0 [] p) : Sane p.tasks.length (p.store.deleted.map snd) p := by
  refine ⟨h.running.mono (fun c call reply s hlt hended => ?_) fun c hc => ?_,h.stopped⟩
  · have hnone : asked p.tasks.length (p.store.deleted.map snd) c = [] := if_neg (by omega)
    rwa [Ended,hnone]
  · have hall : asked p.tasks.length (p.store.deleted.map snd) c = p.store.deleted.map snd := if_pos hc
    refine ⟨(h.running.fresh c hc).1,fun k hk => ?_⟩
    rwa [hall] at hk

theorem not_served_later (h : Served env (first++later)) (hd : (after env first).tasks.length ≤ d)
    (htask : (after env (first++later)).tasks[d]? = some (call,some (.done (.ok a))))
    (hr : r ∈ a.served) : r.logicalMemoryId ∉ (after env first).store.deleted.map snd := by
  have hlater := (sane_after (admissible_append.mp h).1).later.exec (admissible_append.mp h).2
  rw [after,exec_append] at htask
  have hended := hlater.running.tasks d call _ htask
  have hserved := hended.2.2 r hr
  rwa [asked,if_pos hd] at hserved

/-- In every run whose steps may be made, a call behind a deletion serves nothing of the chain, and at
rest every cached head is the newest stored revision. -/
theorem deleted_episode_is_not_served_again {env : Env}
    (events : List (Event (Timestamp × Request))) (h : Served env events) :
    (∀ first later, events = first++later → ∀ (c : ℕ) (now : Timestamp) (id : MemoryId) (a : Answer),
      (after env first).tasks[c]? = some ((now,.delete id),some (.done (.ok a))) →
      ∃ k, (id,k) ∈ (after env first).store.born ∧ ∀ (d : ℕ) (call : Timestamp × Request) (b : Answer),
        (after env first).tasks.length ≤ d →
        (after env events).tasks[d]? = some (call,some (.done (.ok b))) → ∀ r ∈ b.served, r.logicalMemoryId ≠ k) ∧
    (Quiescent (after env events) → ∀ k x, (after env events).store.episodes.heads k = some x →
      Newest (after env events).store.episodes.rows x ∧ x.logicalMemoryId = k) := by
  constructor
  · rintro first later rfl c now id a htask
    have hsane := sane_after (admissible_append.mp h).1
    have hended := hsane.running.tasks c _ _ htask
    obtain ⟨⟨i,k⟩,hx,rfl⟩ := mem_map.mp (hended.2.1 id rfl)
    refine ⟨k,(hsane.running.holds.deleted _ hx).1,fun d call b hd hb r hr hk => ?_⟩
    exact not_served_later h hd hb hr (mem_map.mpr ⟨_,hx,hk.symm⟩)
  · intro hquiescent k x hx
    have hsane := sane_after h
    refine ⟨(hsane.running.holds.newest k x hx).resolve_right ?_,(hsane.running.holds.stored k x hx).2⟩
    rintro ⟨c,hc⟩
    exact hsane.not_owed hquiescent (c,k) hc

/-- A read that has missed an archived episode evicts it again while it is deleted. -/
def evictedDeletion : List (Event (Timestamp × Request)) :=
  List.flatten [alone 0 7 (10,.remember {Aging.deployment (1/2) with archived := true}),
    alone 1 2 (20,.liveHeads [0]),alone 2 4 (21,.delete 0),List.replicate 2 (.step 1 true),
    List.replicate 3 (.step 2 true)]

theorem evicted_deletion_is_not_served_again :
    reply? (after plainEnv (evictedDeletion++alone 3 3 (30,.head 0))) 3 =
      some (.error (.notFound ("episodic logical memory "++ulid 0))) ∧
    ∃ k, (0,k) ∈ (after plainEnv evictedDeletion).store.born ∧
    ∀ (d : ℕ) (call : Timestamp × Request) (b : Answer),
      (after plainEnv evictedDeletion).tasks.length ≤ d →
      (after plainEnv (evictedDeletion++alone 3 3 (30,.head 0))).tasks[d]? =
      some (call,some (.done (.ok b))) → ∀ r ∈ b.served, r.logicalMemoryId ≠ k :=
  ⟨by decide +kernel,(deleted_episode_is_not_served_again (evictedDeletion++alone 3 3 (30,.head 0))
    (by decide +kernel)).1 evictedDeletion (alone 3 3 (30,.head 0)) rfl 2 21 0 .done (by rfl)⟩

/-- An episode is deleted and still served by its logical id: the deletion has cached its head. -/
theorem deleted_episode_served :
    reply? (after plainEnv (List.flatten [alone 0 7 (10,.remember (Aging.deployment (1/2))),
    alone 1 7 (20,.delete 0),
      alone 2 1 (30,.head 0)])) 1 = some (.ok .done) ∧
    reply? (after plainEnv (List.flatten [alone 0 7 (10,.remember (Aging.deployment (1/2))),
    alone 1 7 (20,.delete 0),
      alone 2 1 (30,.head 0)])) 2 = some (.ok (.record (Aging.deployment (1/2)))) := by
  decide +kernel
end EpisodeCalls
end Hirn.Engine
