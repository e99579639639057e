import Hirn.EpisodeCalls

/-! The accounting of accesses to episodes under calls that run side by side: when a flush leaves the rows
as the other operations have made them, and counts every recorded access once. -/
namespace Hirn.Engine
namespace EpisodeCalls
open Chains Calls Runs Revision List
open Aging (AgedEpisode recordAccess)

def bare (r : AgedEpisode) : AgedEpisode := {r with accessCount := 0,lastAccessed := 0}

def untouched (r : AgedEpisode) : AgedEpisode := {bare r with updatedAt := 0,stability := 0}

/-- What is compared of the rows: an access changes it in the same way on rows that are alike in it. -/
structure View where
  of : AgedEpisode → AgedEpisode
  chain : ∀ r, (of r).logicalMemoryId = r.logicalMemoryId
  access : ∀ r now, of (recordAccess (of r) now) = of (recordAccess r now)

def View.bare : View := ⟨EpisodeCalls.bare,fun _ => rfl,fun _ _ => rfl⟩

def View.untouched : View := ⟨EpisodeCalls.untouched,fun _ => rfl,fun _ _ => rfl⟩

def State.all (s : State) : List AgedEpisode := s.episodes.rows++s.held.map Prod.snd

def State.Dead (s : State) (id : MemoryId) : Prop :=
  id ∈ s.born.map Prod.fst ∧ ∀ x ∈ s.born, x.1 = id → ∀ r ∈ s.all, r.logicalMemoryId ≠ x.2
  deriving Decidable

/-- A step may be made: new episodes are new, revisions and deletions follow the newest row while no
flush writes it again, and a flush finds its rows as it has read them. -/
def State.Applies (s : State) : StoreOp → Prop
  | .appendFirst r => r.id ∉ s.born.map Prod.fst ∧ r.logicalMemoryId ∉ s.born.map Prod.snd
  | .appendNext _ current r => r.id ∉ s.born.map Prod.fst ∧
      (∀ x ∈ s.held, x.2.logicalMemoryId ≠ current.logicalMemoryId) ∧
      ∃ x ∈ s.episodes.rows, Newest s.episodes.rows x ∧ x.logicalMemoryId = current.logicalMemoryId ∧
        x.version ≤ current.version ∧ x.accessCount = current.accessCount
  | .dropChain _ k => ∀ x ∈ s.held, x.2.logicalMemoryId ≠ k
  | .access id => id ∈ s.born.map Prod.fst
  | .beginAccess _ id => id ∈ s.born.map Prod.fst
  | .readRows ids => ∀ id ∈ ids, id ∈ s.episodes.rows.map (·.id) ∨ s.Dead id
  | .dropRows _ rows => ∀ r ∈ rows, Newest s.episodes.rows r ∧ ∀ x ∈ s.held, x.2.logicalMemoryId ≠
      r.logicalMemoryId
  | _ => True

instance (s : State) (o : StoreOp) : Decidable (s.Applies o) := by
  cases o <;> unfold State.Applies <;> infer_instance

def StoreOp.flushes : StoreOp → Bool
  | .readRows _ | .dropRows _ _ | .appendRows _ _ => true
  | _ => false

/-- A step that succeeds may be made; a flush and what is done in memory do not fail. -/
def MayApply (_ : ℕ) (_ : Timestamp × Request) (s : State) (o : StoreOp) (succeeds : Bool) : Prop :=
  (succeeds = true → s.Applies o) ∧ (succeeds = false → o.inMemory = false ∧ o.flushes = false)

instance (c : ℕ) (call : Timestamp × Request) (s : State) (o : StoreOp) (succeeds : Bool) :
    Decidable (MayApply c call s o succeeds) := inferInstanceAs (Decidable (_ ∧ _))

/-- A flush writes rows again that were last updated in its millisecond, with a stability that does not
grow any more. -/
def Steady (c : ℕ) (call : Timestamp × Request) (s : State) : StoreOp → Bool → Prop
  | .appendRows _ _, _ => ∀ x ∈ s.held, x.1 = c → x.2.updatedAt = call.1 ∧
      min (x.2.stability*Aging.stabilityGrowthFactor) Aging.maxStabilityHours = x.2.stability
  | _, _ => True

instance (c : ℕ) (call : Timestamp × Request) (s : State) (o : StoreOp) (succeeds : Bool) :
    Decidable (Steady c call s o succeeds) := by
  cases o <;> unfold Steady <;> infer_instance

/-- A flush leaves what is compared of the rows that it writes again. -/
def View.Kept (view : View) (c : ℕ) (call : Timestamp × Request) (s : State) : StoreOp → Prop
  | .appendRows _ _ => ∀ x ∈ s.held, x.1 = c → view.of (recordAccess x.2 call.1) = view.of x.2
  | _ => True

def View.MayApply (view : View) (c : ℕ) (call : Timestamp × Request) (s : State) (o : StoreOp)
    (succeeds : Bool) : Prop :=
  EpisodeCalls.MayApply c call s o succeeds ∧ view.Kept c call s o

def onChain (born : List (MemoryId × LogicalMemoryId)) (k : LogicalMemoryId)
    (ids : List MemoryId) : ℕ :=
  ids.countP fun id => (id,k) ∈ born

structure State.Accounted (view : View) (s : State) : Prop where
  plain : (s.all.map view.of).Perm (s.plain.map view.of)
  ids : (s.all.map (·.id)).Nodup
  versions : (s.all.map fun r => (r.logicalMemoryId,r.version)).Nodup
  born : ∀ r ∈ s.all, (r.id,r.logicalMemoryId) ∈ s.born
  bornIds : (s.born.map Prod.fst).Nodup
  accesses : ∀ id ∈ s.accesses, id ∈ s.born.map Prod.fst
  taken : ∀ x ∈ s.taken, x.2 ∈ s.born.map Prod.fst
  recorded : ∀ id ∈ s.recorded, id ∈ s.born.map Prod.fst
  newest : ∀ x ∈ s.held, Newest s.all x.2
  counts : s.restarted = false → ∀ r, Newest s.all r →
    r.accessCount + onChain s.born r.logicalMemoryId (s.accesses++s.taken.map Prod.snd) =
      s.initial r.logicalMemoryId + onChain s.born r.logicalMemoryId s.recorded

/-- What one call may do to the others. -/
structure Leaves (d : ℕ) (s t : State) : Prop where
  taken : ∀ c, c ≠ d → t.taken.filter (·.1 == c) = s.taken.filter (·.1 == c)
  held : ∀ c, c ≠ d → t.held.filter (·.1 == c) = s.held.filter (·.1 == c)
  born : ∀ x ∈ s.born, x ∈ t.born
  ids : (t.born.map Prod.fst).Nodup
  barren : ∀ k ∈ s.born.map Prod.snd, (∀ r ∈ s.all, r.logicalMemoryId ≠ k) →
    ∀ r ∈ t.all, r.logicalMemoryId ≠ k
  restarted : t.restarted = s.restarted

/-- A call that no flush makes; a revision follows the row that it is made of. -/
def Ordinary : StoreOp → Prop
  | .appendNext _ current r => r.logicalMemoryId = current.logicalMemoryId ∧
      current.version < r.version ∧ r.accessCount = current.accessCount
  | .drain _ | .beginAccess _ _ | .readRows _ | .dropRows _ _ | .appendRows _ _ => False
  | _ => True

variable {view : View} {s t : State} {rows : List AgedEpisode} {c d : ℕ} {ids : List MemoryId}
    {id : MemoryId} {β : Type}
  {o : StoreOp} {k k' : LogicalMemoryId}

section
variable {r x : AgedEpisode}

theorem Leaves.of_same (t : State) (hs : s.Accounted view) (d : ℕ)
    (hall : ∀ r ∈ t.all, r ∈ s.all := by exact fun _ h => h)
    (htaken : t.taken = s.taken := by rfl) (hheld : t.held = s.held := by rfl)
    (hborn : t.born = s.born := by rfl)
    (hrestarted : t.restarted = s.restarted := by rfl) : Leaves d s t :=
  ⟨fun _ _ => by rw [htaken],fun _ _ => by rw [hheld],fun _ h => hborn ▸ h,hborn ▸ hs.bornIds,
    fun _ _ hbarren r hr => hbarren r (hall r hr),hrestarted⟩

theorem newest_congr (h : ∀ y, y ∈ rows ↔ y ∈ rows') : Newest rows r ↔ Newest rows' r := by
  simp [Newest,h]

theorem State.Accounted.newest_unique (hs : s.Accounted view) (hr : Newest s.all r)
    (hx : Newest s.all x) (hchain : r.logicalMemoryId = x.logicalMemoryId) : r = x := by
  have hversion : r.version = x.version :=
    le_antisymm (hx.version_le hr.1 hchain) (hr.version_le hx.1 hchain.symm)
  exact inj_on_of_nodup_map hs.versions hr.1 hx.1 (Prod.ext hchain hversion)

theorem State.Accounted.chain_unique (hs : s.Accounted view)
    (h : (id,k) ∈ s.born) (h' : (id,k') ∈ s.born) : k = k' :=
  congrArg Prod.snd (inj_on_of_nodup_map hs.bornIds h h' rfl)

variable {born : List (MemoryId × LogicalMemoryId)}

theorem onChain_append (hid : id ∉ born.map Prod.fst) (hids : ∀ i ∈ ids, i ∈ born.map Prod.fst) :
    onChain (born++[(id,k')]) k ids = onChain born k ids := by
  refine countP_congr fun i hi => ?_
  simp only [decide_eq_true_eq,mem_append,mem_singleton,Prod.mk.injEq]
  refine or_iff_left fun h => hid (h.1 ▸ hids i hi)

theorem onChain_eq_zero (hk : k ∉ born.map Prod.snd) : onChain born k ids = 0 := by
  refine countP_eq_zero.mpr fun i _ h => hk ?_
  exact mem_map.mpr ⟨_,of_decide_eq_true h,rfl⟩

theorem State.Accounted.pending (hs : s.Accounted view) :
    ∀ id ∈ s.accesses++s.taken.map Prod.snd, id ∈ s.born.map Prod.fst := by
  intro id hid
  rcases mem_append.mp hid with hid | hid
  · exact hs.accesses id hid
  · obtain ⟨x,hx,rfl⟩ := mem_map.mp hid
    exact hs.taken x hx

/-- A row is newer than its chain, and those of other chains stay the newest. -/
structure State.Grows (s t : State) (r : AgedEpisode) : Prop where
  all : t.all.Perm (r::s.all)
  plain : t.plain = s.plain++[r]
  born : t.born = s.born++[(r.id,r.logicalMemoryId)]
  accesses : t.accesses = s.accesses
  taken : t.taken = s.taken
  recorded : t.recorded = s.recorded
  held : t.held = s.held
  restarted : t.restarted = s.restarted
  id : r.id ∉ s.born.map Prod.fst
  older : ∀ y ∈ s.all, y.logicalMemoryId = r.logicalMemoryId → y.version < r.version
  apart : ∀ x ∈ s.held, x.2.logicalMemoryId ≠ r.logicalMemoryId
  initial : ∀ k, k ≠ r.logicalMemoryId → t.initial k = s.initial k
  count : s.restarted = false → r.accessCount + onChain s.born r.logicalMemoryId
    (s.accesses++s.taken.map Prod.snd) =
    t.initial r.logicalMemoryId + onChain s.born r.logicalMemoryId s.recorded

variable {y : AgedEpisode}

theorem State.Grows.mem (h : s.Grows t r) : y ∈ t.all ↔ y = r ∨ y ∈ s.all := by
  rw [h.all.mem_iff,mem_cons]

theorem State.Grows.newest (h : s.Grows t r) (hx : Newest t.all x) :
    x = r ∨ Newest s.all x ∧ x.logicalMemoryId ≠ r.logicalMemoryId := by
  rcases h.mem.mp hx.1 with rfl | hmem
  · exact .inl rfl
  · refine .inr ⟨⟨hmem,fun y hy => hx.2 y (h.mem.mpr (.inr hy))⟩,fun hchain => ?_⟩
    have hle := hx.version_le (h.mem.mpr (.inl rfl)) hchain.symm
    exact absurd hle (not_le.mpr (h.older x hmem hchain))

theorem State.Grows.accounted (hs : s.Accounted view) (h : s.Grows t r) : t.Accounted view := by
  have hbornIds : (t.born.map Prod.fst).Nodup := by
    rw [h.born,map_append,map_singleton,← concat_eq_append,nodup_concat]
    exact ⟨h.id,hs.bornIds⟩
  have hborn : ∀ i ∈ s.born.map Prod.fst, i ∈ t.born.map Prod.fst := by
    rw [h.born]
    exact map_subset _ (subset_append_left _ _)
  have hnew : r.id ∉ s.all.map (·.id) := by
    intro hin
    obtain ⟨y,hy,hid⟩ := mem_map.mp hin
    exact h.id (mem_map.mpr ⟨_,hs.born y hy,hid⟩)
  refine ⟨?_,?_,?_,fun y hy => ?_,hbornIds,fun i hi => ?_,fun x hx => ?_,fun i hi => ?_,fun x hx =>
    ?_,fun hrestarted y hy => ?_⟩
  · rw [h.plain,map_append]
    refine (h.all.map view.of).trans ?_
    exact ((List.Perm.cons _ hs.plain).trans (perm_append_singleton _ _).symm)
  · refine (h.all.map (·.id)).nodup_iff.mpr (nodup_cons.mpr ⟨hnew,hs.ids⟩)
  · refine (h.all.map fun r => (r.logicalMemoryId,r.version)).nodup_iff.mpr
      (nodup_cons.mpr ⟨fun hin => ?_,hs.versions⟩)
    obtain ⟨y,hy,hsame⟩ := mem_map.mp hin
    rw [Prod.mk.injEq] at hsame
    exact absurd hsame.2 (h.older y hy hsame.1).ne
  · rw [h.born]
    rcases h.mem.mp hy with rfl | hy
    · exact mem_append_right _ (mem_singleton_self _)
    · exact mem_append_left _ (hs.born y hy)
  · rw [h.accesses] at hi
    exact hborn i (hs.accesses i hi)
  · rw [h.taken] at hx
    exact hborn _ (hs.taken x hx)
  · rw [h.recorded] at hi
    exact hborn i (hs.recorded i hi)
  · rw [h.held] at hx
    have hnewest := hs.newest x hx
    refine ⟨h.mem.mpr (.inr hnewest.1),fun y hy hchain => ?_⟩
    rcases h.mem.mp hy with rfl | hy
    · exact absurd hchain.symm (h.apart x hx)
    · exact hnewest.2 y hy hchain
  · rw [h.born,h.accesses,h.taken,h.recorded,onChain_append h.id hs.pending,
      onChain_append h.id hs.recorded]
    rw [h.restarted] at hrestarted
    rcases h.newest hy with rfl | ⟨hnewest,hchain⟩
    · exact h.count hrestarted
    · rw [h.initial _ hchain]
      exact hs.counts hrestarted y hnewest

theorem State.Grows.leaves (h : s.Grows t r) (ht : t.Accounted view)
    (hchain : r.logicalMemoryId ∈ s.born.map Prod.snd →
    ∃ y ∈ s.all, y.logicalMemoryId = r.logicalMemoryId) :
    Leaves c s t := by
  refine ⟨fun d _ => by rw [h.taken],fun d _ => by rw [h.held],fun x hx => h.born ▸ mem_append_left _ hx,ht.bornIds,
    fun k hk hbarren y hy => ?_,h.restarted⟩
  rcases h.mem.mp hy with rfl | hy
  · rintro rfl
    obtain ⟨z,hz,hzy⟩ := hchain hk
    exact hbarren z hz hzy
  · exact hbarren y hy

theorem all_append (s : State) (r : AgedEpisode) :
    ((s.episodes.append [r]).rows++s.held.map Prod.snd).Perm (r::s.all) := by
  change ((s.episodes.rows++[r])++_).Perm _
  rw [append_assoc]
  exact perm_middle

theorem accounted_appendFirst (hs : s.Accounted view) (h : s.Applies (.appendFirst r)) :
    (effect (.appendFirst r) s).Accounted view ∧ Leaves c s (effect (.appendFirst r) s) := by
  have hother : ∀ y ∈ s.all, y.logicalMemoryId ≠ r.logicalMemoryId := fun y hy hk =>
    h.2 (mem_map.mpr ⟨_,hs.born y hy,hk⟩)
  have hgrows : s.Grows (effect (.appendFirst r) s) r := by
    refine ⟨all_append s r,rfl,rfl,rfl,rfl,rfl,rfl,rfl,h.1,fun y hy hk => absurd hk (hother y hy),
      fun x hx => ?_, fun k hk => Function.update_of_ne hk _ _,fun _ => ?_⟩
    · exact hother x.2 (mem_append_right _ (mem_map_of_mem hx))
    · rw [onChain_eq_zero h.2,onChain_eq_zero h.2]
      change _ = Function.update s.initial r.logicalMemoryId r.accessCount r.logicalMemoryId + 0
      rw [Function.update_self]
  have haccounted := hgrows.accounted hs
  exact ⟨haccounted,hgrows.leaves haccounted fun hin => absurd hin h.2⟩

theorem accounted_appendNext (hs : s.Accounted view) (h : s.Applies (.appendNext d current r))
    (hr : Ordinary (.appendNext d current r)) :
    (effect (.appendNext d current r) s).Accounted view ∧
    Leaves c s (effect (.appendNext d current r) s) := by
  obtain ⟨hid,hheld,x,hx,hnewest,hchain,hversion,hcount⟩ := h
  obtain ⟨hrchain,hrversion,hrcount⟩ := hr
  rw [← hrchain] at hheld hchain
  have hnewest : Newest s.all x := hnewest.append fun y hy hk => by
    obtain ⟨z,hz,rfl⟩ := mem_map.mp hy
    exact absurd (hk.trans hchain) (hheld z hz)
  have hgrows : s.Grows (effect (.appendNext d current r) s) r := by
    refine ⟨all_append s r,rfl,rfl,rfl,rfl,rfl,rfl,rfl,hid,fun y hy hk => ?_,hheld,fun _ _ => rfl,
      fun hrestarted => ?_⟩
    · exact ((hnewest.version_le hy (hk.trans hchain.symm)).trans hversion).trans_lt hrversion
    · rw [hrcount,← hcount,← hchain]
      exact hs.counts hrestarted x hnewest
  have haccounted := hgrows.accounted hs
  exact ⟨haccounted,hgrows.leaves haccounted fun _ => ⟨x,hnewest.1,hchain⟩⟩

theorem View.map_filter (view : View) (k : LogicalMemoryId) (l : List AgedEpisode) :
    (l.filter (·.logicalMemoryId != k)).map view.of = (l.map view.of).filter
    (·.logicalMemoryId != k) := by
  rw [filter_map]
  congr 1
  exact filter_congr fun r _ => by rw [Function.comp_apply,view.chain]

theorem accounted_dropChain (hs : s.Accounted view) (h : s.Applies (.dropChain id k)) :
    (effect (.dropChain id k) s).Accounted view ∧ Leaves c s (effect (.dropChain id k) s) := by
  have hall : (effect (.dropChain id k) s).all = s.all.filter (·.logicalMemoryId != k) := by
    rw [State.all,State.all,filter_append]
    congr 1
    refine (filter_eq_self.mpr fun y hy => ?_).symm
    obtain ⟨x,hx,rfl⟩ := mem_map.mp hy
    exact bne_iff_ne.mpr (h x hx)
  have hsub : ∀ y ∈ (effect (.dropChain id k) s).all, y ∈ s.all := fun y hy =>
    mem_of_mem_filter (hall ▸ hy)
  have hnewest : ∀ y, Newest (effect (.dropChain id k) s).all y → Newest s.all y := by
    intro y hy
    refine ⟨hsub y hy.1,fun z hz hchain => hy.2 z ?_ hchain⟩
    rw [hall,mem_filter]
    have hne := (mem_filter.mp (hall ▸ hy.1)).2
    exact ⟨hz,by rwa [show z.logicalMemoryId = y.logicalMemoryId from hchain]⟩
  refine ⟨⟨?_,?_,?_,fun y hy => hs.born y (hsub y hy),hs.bornIds,hs.accesses,hs.taken,hs.recorded,
    fun x hx => ?_,
    fun hrestarted y hy => hs.counts hrestarted y (hnewest y hy)⟩,Leaves.of_same
    (effect (.dropChain id k) s) hs c hsub⟩
  · rw [hall,view.map_filter]
    change ((s.all.map view.of).filter _).Perm ((s.plain.filter _).map view.of)
    rw [view.map_filter]
    exact hs.plain.filter _
  · rw [hall]
    exact hs.ids.sublist (filter_sublist.map _)
  · rw [hall]
    exact hs.versions.sublist (filter_sublist.map _)
  · rw [hall]
    exact (hs.newest x hx).filter (bne_iff_ne.mpr (h x hx))

theorem onChain_append_ids (born : List (MemoryId × LogicalMemoryId)) (ids ids' : List MemoryId) :
    onChain born k (ids++ids') = onChain born k ids + onChain born k ids' := countP_append

theorem filter_owner_append {l new : List (ℕ × β)} (h : ∀ x ∈ new, x.1 ≠ d) :
    (l++new).filter (·.1 == d) = l.filter (·.1 == d) := by
  have hnone : new.filter (·.1 == d) = [] := filter_eq_nil_iff.mpr fun x hx => by simpa using h x hx
  rw [filter_append,hnone,append_nil]

theorem accounted_access (hs : s.Accounted view) (h : s.Applies (.access id)) :
    (effect (.access id) s).Accounted view ∧ Leaves c s (effect (.access id) s) := by
  refine ⟨{hs with accesses := forall_mem_append.mpr ⟨hs.accesses,forall_mem_singleton.mpr h⟩,
                   recorded := forall_mem_append.mpr ⟨hs.recorded,forall_mem_singleton.mpr h⟩,
                   counts := fun hrestarted r hr => ?_},
    Leaves.of_same (effect (.access id) s) hs c⟩
  have hcounts := hs.counts hrestarted r hr
  change r.accessCount + onChain s.born _ ((s.accesses++[id])++s.taken.map Prod.snd) =
    s.initial r.logicalMemoryId + onChain s.born _ (s.recorded++[id])
  simp only [onChain_append_ids] at hcounts ⊢
  omega

theorem accounted_drain (hs : s.Accounted view) :
    (effect (.drain c) s).Accounted view ∧ Leaves c s (effect (.drain c) s) := by
  have htaken : ∀ x ∈ s.taken++s.accesses.map (c,·), x.2 ∈ s.born.map Prod.fst := by
    refine forall_mem_append.mpr ⟨hs.taken,fun x hx => ?_⟩
    obtain ⟨i,hi,rfl⟩ := mem_map.mp hx
    exact hs.accesses i hi
  refine ⟨{hs with accesses := nofun,taken := htaken,counts := fun hrestarted r hr => ?_},
    {Leaves.of_same s hs c with taken := fun d hd => ?_}⟩
  · have hcounts := hs.counts hrestarted r hr
    have hmap : (s.taken++s.accesses.map (c,·)).map Prod.snd = s.taken.map Prod.snd++
      s.accesses := by simp
    change r.accessCount + onChain s.born _ ([]++(s.taken++s.accesses.map (c,·)).map Prod.snd) =
      s.initial r.logicalMemoryId + onChain s.born _ s.recorded
    rw [nil_append,hmap,onChain_append_ids]
    rw [onChain_append_ids] at hcounts
    omega
  · refine filter_owner_append fun x hx => ?_
    obtain ⟨i,-,rfl⟩ := mem_map.mp hx
    exact hd.symm

theorem accounted_beginAccess (hs : s.Accounted view) (h : s.Applies (.beginAccess c id)) :
    (effect (.beginAccess c id) s).Accounted view ∧ Leaves c s (effect (.beginAccess c id) s) := by
  refine ⟨{hs with taken := forall_mem_append.mpr ⟨hs.taken,forall_mem_singleton.mpr h⟩,
                   recorded := forall_mem_append.mpr ⟨hs.recorded,forall_mem_singleton.mpr h⟩,
                   counts := fun hrestarted r hr => ?_},
    {Leaves.of_same s hs c with taken := fun d hd => ?_}⟩
  · have hcounts := hs.counts hrestarted r hr
    change r.accessCount + onChain s.born _ (s.accesses++(s.taken++[(c,id)]).map Prod.snd) =
      s.initial r.logicalMemoryId + onChain s.born _ (s.recorded++[id])
    rw [map_append,map_singleton]
    simp only [onChain_append_ids] at hcounts ⊢
    omega
  · exact filter_owner_append (forall_mem_singleton.mpr hd.symm)

theorem filter_ids_perm {some : List AgedEpisode}
    (hrows : (rows.map (·.id)).Nodup) (hsome : (some.map (·.id)).Nodup)
    (hsub : ∀ r ∈ some, r ∈ rows) : (rows.filter fun r => (some.map (·.id)).contains r.id).Perm
    some := by
  refine (perm_ext_iff_of_nodup ?_ (List.Nodup.of_map _ hsome)).mpr fun r => ?_
  · exact (List.Nodup.of_map _ hrows).filter _
  · rw [mem_filter,contains_iff_mem,mem_map]
    constructor
    · rintro ⟨hr,x,hx,hid⟩
      rwa [← inj_on_of_nodup_map hrows (hsub x hx) hr hid]
    · exact fun hr => ⟨hsub r hr,r,hr,rfl⟩

theorem all_dropRows (c : ℕ) (rows : List AgedEpisode) (s : State) :
    (effect (.dropRows c rows) s).all.Perm s.all := by
  change (s.episodes.rows.filter _++(s.held++(s.episodes.rows.filter _).map (c,·)).map Prod.snd).Perm _
  rw [map_append,map_map]
  change (_++(_++(s.episodes.rows.filter _).map id)).Perm _
  rw [map_id]
  refine (List.Perm.append_left _ perm_append_comm).trans ?_
  rw [← append_assoc]
  refine List.Perm.append_right _ ((perm_append_comm).trans ?_)
  exact filter_append_perm _ _

theorem accounted_dropRows (hs : s.Accounted view)
    (h : s.Applies (.dropRows c rows)) (hids : (rows.map (·.id)).Nodup) :
    (effect (.dropRows c rows) s).Accounted view ∧ Leaves c s (effect (.dropRows c rows) s) := by
  have hperm := all_dropRows c rows s
  have hmem : ∀ y, y ∈ (effect (.dropRows c rows) s).all ↔ y ∈ s.all := fun y => hperm.mem_iff
  have hnewest : ∀ r ∈ rows, Newest s.all r := fun r hr => (h r hr).1.append fun y hy hk => by
    obtain ⟨z,hz,rfl⟩ := mem_map.mp hy
    exact absurd hk ((h r hr).2 z hz)
  refine ⟨⟨(hperm.map view.of).trans hs.plain,(hperm.map _).nodup_iff.mpr hs.ids,
    (hperm.map _).nodup_iff.mpr hs.versions,
    fun y hy => hs.born y ((hmem y).mp hy),hs.bornIds,hs.accesses,hs.taken,hs.recorded,fun x hx =>
    ?_,fun hrestarted y hy => hs.counts hrestarted y ((newest_congr hmem).mp hy)⟩,
    ⟨fun _ _ => rfl,fun d hd => ?_,fun _ hx => hx,hs.bornIds,
    fun k _ hbarren y hy => hbarren y ((hmem y).mp hy),rfl⟩⟩
  · rw [newest_congr hmem]
    rcases mem_append.mp hx with hx | hx
    · exact hs.newest x hx
    · obtain ⟨y,hy,rfl⟩ := mem_map.mp hx
      exact hnewest y ((filter_ids_perm (hs.ids.sublist ((sublist_append_left _ _).map _)) hids
        fun r hr => (h r hr).1.1).mem_iff.mp hy)
  · refine filter_owner_append fun x hx => ?_
    obtain ⟨y,-,rfl⟩ := mem_map.mp hx
    exact hd.symm

theorem recordAccesses_eq (now : Timestamp) (r : AgedEpisode) (n : ℕ) :
    (recordAccesses now r n).id = r.id ∧ (recordAccesses now r n).logicalMemoryId = r.logicalMemoryId ∧
      (recordAccesses now r n).version = r.version ∧ rank (recordAccesses now r n) = rank r ∧
      (recordAccesses now r n).accessCount = r.accessCount+n := by
  induction n with
  | zero => exact ⟨rfl,rfl,rfl,rfl,rfl⟩
  | succ n ih =>
    obtain ⟨hid,hchain,hversion,hrank,hcount⟩ := ih
    refine ⟨hid,hchain,hversion,hrank,?_⟩
    change (recordAccesses now r n).accessCount+1 = _
    rw [hcount,Nat.add_assoc]

theorem View.recordAccesses_eq (view : View) {now : Timestamp} {r : AgedEpisode}
    (h : view.of (recordAccess r now) = view.of r) (n : ℕ) :
    view.of (recordAccesses now r n) = view.of r := by
  induction n with
  | zero => rfl
  | succ n ih =>
    change view.of (recordAccess (recordAccesses now r n) now) = _
    rw [← view.access,ih,view.access,h]

theorem filter_others {d : ℕ} {p : ℕ × β → Bool} (hp : ∀ e, e.1 = d → p e = true)
    (xs : List (ℕ × β)) : (xs.filter p).filter (·.1 == d) = xs.filter (·.1 == d) := by
  rw [filter_filter]
  refine filter_congr fun e _ => ?_
  by_cases he : e.1 = d
  · simp [he,hp e he]
  · simp [he]

theorem newer_congr {a a' b b' : AgedEpisode} (ha : rank a = rank a') (hb : rank b = rank b') :
    newer a b = newer a' b' := by
  rw [Bool.eq_iff_iff,newer_iff,newer_iff,ha,hb]

/-- A row with the accesses to it that the call has taken. -/
def State.counted (s : State) (c : ℕ) (now : Timestamp) (r : AgedEpisode) : AgedEpisode :=
  recordAccesses now r (s.taken.count (c,r.id))

/-- The rows of a flush come back with their accesses, and the newest stays the newest. -/
structure State.Rewrites (s t : State) (c : ℕ) (rest olds : List AgedEpisode)
    (f : AgedEpisode → AgedEpisode) : Prop where
  before : s.all.Perm (rest++olds)
  after : t.all.Perm (rest++olds.map f)
  same : ∀ r, (f r).id = r.id ∧ (f r).logicalMemoryId = r.logicalMemoryId ∧
    (f r).version = r.version ∧ rank (f r) = rank r
  held : ∀ r ∈ olds, Newest s.all r

variable {rest olds : List AgedEpisode} {f : AgedEpisode → AgedEpisode}
    (h : s.Rewrites t c rest olds f)
include h

theorem State.Rewrites.mem : y ∈ t.all ↔ y ∈ rest ∨ ∃ r ∈ olds, f r = y := by
  rw [h.after.mem_iff,mem_append,mem_map]

theorem State.Rewrites.mem_before : y ∈ s.all ↔ y ∈ rest ∨ y ∈ olds := by
  rw [h.before.mem_iff,mem_append]

theorem State.Rewrites.newest {z : AgedEpisode} (hy : Newest t.all y) (hz : z ∈ s.all)
    (hrank : rank y = rank z) (hchain : y.logicalMemoryId = z.logicalMemoryId) : Newest s.all z := by
  refine ⟨hz,fun w hw hwz => ?_⟩
  have hwy : w.logicalMemoryId = y.logicalMemoryId := Eq.trans hwz hchain.symm
  rcases h.mem_before.mp hw with hrest | hold
  · rw [newer_congr rfl hrank.symm]
    exact hy.2 w (h.mem.mpr (.inl hrest)) hwy
  · rw [← newer_congr (h.same w).2.2.2 hrank]
    exact hy.2 (f w) (h.mem.mpr (.inr ⟨w,hold,rfl⟩)) ((h.same w).2.1.trans hwy)

theorem State.Rewrites.map_perm (g : AgedEpisode → β)
    (hg : ∀ r ∈ olds, g (f r) = g r) : (t.all.map g).Perm (s.all.map g) := by
  refine (h.after.map g).trans (List.Perm.trans ?_ (h.before.map g).symm)
  rw [map_append,map_append,map_map,map_congr_left (f := g ∘ f) (g := g) hg]

omit h

section
variable (hs : s.Accounted view)
include hs

theorem State.Accounted.removed (h : s.Rewrites t c rest olds f) (hx : Newest s.all x)
    (e : ℕ × MemoryId) :
    ((e.2,x.logicalMemoryId) ∈ s.born ∧ e.1 = c ∧ e.2 ∈ (olds.map f).map (·.id)) ↔ x ∈ olds ∧
    e = (c,x.id) := by
  constructor
  · rintro ⟨hborn,hc,hid⟩
    obtain ⟨y,hy,hid⟩ := mem_map.mp hid
    obtain ⟨r,hr,rfl⟩ := mem_map.mp hy
    rw [(h.same r).1] at hid
    have hchain : r.logicalMemoryId = x.logicalMemoryId :=
      hs.chain_unique (hs.born r (h.held r hr).1) (hid ▸ hborn)
    have heq := hs.newest_unique (h.held r hr) hx hchain
    exact ⟨heq ▸ hr,Prod.ext hc (hid.symm.trans (congrArg (·.id) heq))⟩
  · rintro ⟨hr,rfl⟩
    exact ⟨hs.born x hx.1,rfl,mem_map.mpr ⟨f x,mem_map_of_mem hr,(h.same x).1⟩⟩

theorem State.Accounted.taken_filter (h : s.Rewrites t c rest olds f) (hx : Newest s.all x) :
    onChain s.born x.logicalMemoryId (s.taken.map Prod.snd) =
      onChain s.born x.logicalMemoryId ((s.taken.filter fun e =>
        !(e.1 == c && ((olds.map f).map (·.id)).contains e.2)).map Prod.snd) +
      if x ∈ olds then s.taken.count (c,x.id) else 0 := by
  simp only [onChain,countP_map]
  rw [countP_eq_countP_filter_add s.taken _ fun e =>
    !(e.1 == c && ((olds.map f).map (·.id)).contains e.2)]
  congr 1
  rw [countP_filter]
  have hcongr : ∀ e ∈ s.taken, ((((fun id => decide ((id,x.logicalMemoryId) ∈ s.born)) ∘ Prod.snd) e &&
      !(!(e.1 == c && ((olds.map f).map (·.id)).contains e.2))) = true ↔ x ∈ olds ∧ e = (c,x.id)) := by
    intro e _
    rw [← hs.removed h hx e]
    simp
  split
  next hin =>
    refine countP_congr fun e he => (hcongr e he).trans ?_
    rw [beq_iff_eq]
    exact and_iff_right hin
  next hnot =>
    exact countP_eq_zero.mpr fun e he htrue => hnot ((hcongr e he).mp htrue).1

/-- The rows that a flush brings back are the held ones with their accesses. -/
theorem State.Accounted.rewrites (now : Timestamp) (hheld : ∀ r ∈ olds, (c,r) ∈ s.held)
    (hperm : ((s.held.filter (·.1 == c)).map Prod.snd).Perm olds) :
    s.Rewrites (effect (.appendRows c (olds.map (s.counted c now))) s) c
      (s.episodes.rows++(s.held.filter (·.1 != c)).map Prod.snd) olds (s.counted c now) := by
  refine ⟨?_,?_,fun r => ?_,fun r hr => hs.newest _ (hheld r hr)⟩
  · rw [append_assoc]
    refine List.Perm.append_left _ (List.Perm.trans ?_ (List.Perm.append_left _ hperm))
    rw [← map_append]
    refine (((filter_append_perm (fun x : ℕ × AgedEpisode => x.1 == c) s.held).symm.trans
      perm_append_comm).map _).trans (List.Perm.of_eq ?_)
    congr 3
  · change ((s.episodes.rows++_)++(s.held.filter _).map _).Perm _
    rw [append_assoc,append_assoc]
    exact List.Perm.append_left _ perm_append_comm
  · obtain ⟨hid,hchain,hversion,hrank,-⟩ := recordAccesses_eq now r (s.taken.count (c,r.id))
    exact ⟨hid,hchain,hversion,hrank⟩

theorem State.Accounted.origin {now : Timestamp} (h : s.Rewrites t c rest olds (s.counted c now))
    (hy : y ∈ t.all) : ∃ z ∈ s.all, y.id = z.id ∧ y.logicalMemoryId = z.logicalMemoryId ∧
      rank y = rank z ∧
      y.accessCount = z.accessCount + if z ∈ olds then s.taken.count (c,z.id) else 0 := by
  rcases h.mem.mp hy with hrest | ⟨r,hr,rfl⟩
  · refine ⟨y,h.mem_before.mpr (.inl hrest),rfl,rfl,rfl,?_⟩
    rw [if_neg,Nat.add_zero]
    intro hold
    have hnodup := (h.before.map (·.id)).nodup_iff.mp hs.ids
    rw [map_append] at hnodup
    exact (nodup_append'.mp hnodup).2.2 (mem_map_of_mem hrest) (mem_map_of_mem hold)
  · obtain ⟨hid,hchain,-,hrank,hcount⟩ := recordAccesses_eq now r (s.taken.count (c,r.id))
    refine ⟨r,h.mem_before.mpr (.inr hr),hid,hchain,hrank,?_⟩
    rw [if_pos hr]
    exact hcount

theorem accounted_appendRows (call : Timestamp × Request) (h : view.Kept c call s (.appendRows c rows))
    (hperm : ((s.held.filter (·.1 == c)).map Prod.snd).Perm olds)
    (hrows : rows = olds.map (s.counted c call.1)) :
    (effect (.appendRows c rows) s).Accounted view ∧ Leaves c s (effect (.appendRows c rows) s) := by
  subst hrows
  have hheld : ∀ r ∈ olds, (c,r) ∈ s.held := by
    intro r hr
    obtain ⟨⟨d,y⟩,hy,rfl⟩ := mem_map.mp (hperm.mem_iff.mpr hr)
    obtain ⟨hy,hd⟩ := mem_filter.mp hy
    exact beq_iff_eq.mp hd ▸ hy
  have hrewrites := hs.rewrites call.1 hheld hperm
  have hkept : ∀ r ∈ olds, view.of (s.counted c call.1 r) = view.of r := fun r hr =>
    view.recordAccesses_eq (h _ (hheld r hr) rfl) _
  refine ⟨⟨(hrewrites.map_perm view.of hkept).trans hs.plain,
    (hrewrites.map_perm _ fun r _ => (hrewrites.same r).1).nodup_iff.mpr hs.ids,
    (hrewrites.map_perm _ fun r _ => Prod.ext (hrewrites.same r).2.1
      (hrewrites.same r).2.2.1).nodup_iff.mpr hs.versions,
    fun y hy => ?_,hs.bornIds,hs.accesses,fun e he => hs.taken e (mem_of_mem_filter he),hs.recorded,
    fun x hx => ?_,fun hrestarted y hy => ?_⟩,
    ⟨fun d hd => filter_others (fun e he => by simp [he,hd]) s.taken,
    fun d hd => filter_others (fun e he => by simp [he,hd]) s.held,fun _ hx => hx,hs.bornIds,
    fun k _ hbarren y hy => ?_,rfl⟩⟩
  · obtain ⟨z,hz,hid,hchain,-⟩ := hs.origin hrewrites hy
    rw [hid,hchain]
    exact hs.born z hz
  · obtain ⟨hx,hne⟩ := mem_filter.mp hx
    have hnewest := hs.newest x hx
    refine ⟨hrewrites.mem.mpr (.inl (mem_append_right _
      (mem_map_of_mem (mem_filter.mpr ⟨hx,hne⟩)))),fun y hy hchain => ?_⟩
    obtain ⟨z,hz,-,hyz,hrank,-⟩ := hs.origin hrewrites hy
    rw [newer_congr hrank rfl]
    exact hnewest.2 z hz (hyz.symm.trans hchain)
  · obtain ⟨z,hz,-,hchain,hrank,hcount⟩ := hs.origin hrewrites hy.1
    have hnewest := hrewrites.newest hy hz hrank hchain
    have hcounts := hs.counts hrestarted z hnewest
    have htaken := hs.taken_filter hrewrites hnewest
    rw [onChain_append_ids] at hcounts
    rw [hchain]
    change _ + onChain s.born _ (s.accesses++List.map Prod.snd (List.filter _ s.taken)) =
      s.initial z.logicalMemoryId + onChain s.born _ s.recorded
    rw [onChain_append_ids]
    omega
  · obtain ⟨z,hz,-,hchain,-⟩ := hs.origin hrewrites hy
    rw [hchain]
    exact hbarren z hz

theorem accounted_effect (h : s.Applies o) (ho : Ordinary o) :
    (effect o s).Accounted view ∧ Leaves c s (effect o s) := by
  cases o with
  | appendFirst r => exact accounted_appendFirst hs h
  | appendNext d current r => exact accounted_appendNext hs h ho
  | dropChain id k => exact accounted_dropChain hs h
  | access id => exact accounted_access hs h
  | drain d => exact ho.elim
  | beginAccess d id => exact ho.elim
  | readRows ids => exact ho.elim
  | dropRows d rows => exact ho.elim
  | appendRows d rows => exact ho.elim
  | cacheHead d r =>
    have hall : (effect (.cacheHead d r) s).all = s.all := by
      exact congrArg (·++s.held.map Prod.snd) Store.rows_cacheHead
    refine ⟨?_,Leaves.of_same (effect (.cacheHead d r) s) hs c fun y hy => hall ▸ hy⟩
    refine ⟨?_,?_,?_,?_,hs.bornIds,hs.accesses,hs.taken,hs.recorded,?_,?_⟩ <;> rw [hall]
    · exact hs.plain
    · exact hs.ids
    · exact hs.versions
    · exact hs.born
    · exact hs.newest
    · exact hs.counts
  | evictHead k => exact ⟨{hs with},Leaves.of_same (effect (.evictHead k) s) hs c⟩
  | look => exact ⟨hs,Leaves.of_same s hs c⟩
  | outside => exact ⟨hs,Leaves.of_same s hs c⟩
end
end

variable {α : Type}

section
variable (env : Env) (c : ℕ) (now : Timestamp)

theorem uses_look (f : State → α) : Uses Ordinary (look f).run := uses_map (uses_request trivial)
theorem uses_write (h : Ordinary o) : Uses Ordinary (write o).run := uses_map (uses_request h)

theorem uses_undoing (hm : Uses Ordinary m.run) : Uses Ordinary (undoing m).run := by
  refine uses_bind (uses_attempt hm) fun outcome => ?_
  cases outcome with
  | ok a => exact uses_pure
  | error e => exact uses_bind (uses_attempt (uses_write trivial)) fun _ => uses_throw

theorem uses_readEpisodicRecord (id : MemoryId) : Uses Ordinary (readEpisodicRecord id).run :=
  uses_bind (uses_look _) fun _ => uses_expect

theorem uses_episodicHeadForLogicalId (k : LogicalMemoryId) :
    Uses Ordinary (episodicHeadForLogicalId env c k).run := by
  refine uses_bind (uses_look _) fun cached => ?_
  cases cached with
  | some r => exact uses_pure
  | none =>
    refine uses_bind (uses_look _) fun loaded => ?_
    cases loaded with
    | some r => exact uses_bind (uses_write trivial) fun _ => uses_pure
    | none => exact uses_bind (uses_write trivial) fun _ => uses_throw

theorem uses_liveEpisodicHeadsForLogicalIds (ks : List LogicalMemoryId) :
    Uses Ordinary (liveEpisodicHeadsForLogicalIds c ks).run := by
  refine uses_bind (uses_look _) fun cached => ?_
  split
  · exact uses_pure
  · refine uses_bind (uses_look _) fun rows => ?_
    refine uses_bind (uses_forEach (fun r => uses_write (o := .cacheHead c r) trivial) _) fun _ => ?_
    exact uses_bind (uses_forEach (fun k => uses_write (o := .evictHead k) trivial) _) fun _ =>
      uses_pure

theorem uses_episodicEditTarget (id : MemoryId) : Uses Ordinary (episodicEditTarget env c id).run := by
  refine uses_bind (uses_readEpisodicRecord id) fun record => ?_
  refine uses_bind (uses_episodicHeadForLogicalId env c _) fun head => ?_
  exact uses_bind uses_require fun _ => uses_pure

theorem uses_reembedded_bind {current next : AgedEpisode} {g : AgedEpisode → Act Unit}
    (hg : ∀ r : AgedEpisode, r.logicalMemoryId = next.logicalMemoryId → r.version = next.version →
      r.accessCount = next.accessCount → Uses Ordinary (g r).run) :
    Uses Ordinary (reembedded env current next >>= g).run := by
  unfold reembedded
  split
  · rw [pure_bind]
    exact hg next rfl rfl rfl
  · rw [bind_assoc]
    exact uses_bind (uses_write trivial) fun _ => hg _ rfl rfl rfl

theorem uses_appendEpisodicSuccessor (i : ℕ) (current : AgedEpisode) (edit : Edit) :
    Uses Ordinary (appendEpisodicSuccessor env c now i current edit).run := by
  have hsimilar : ∀ next, Uses Ordinary (applySimilarityEdges next).run := by
    intro next
    unfold applySimilarityEdges
    split
    · exact uses_undoing (uses_write trivial)
    · exact uses_pure
  refine uses_reembedded_bind env fun next hchain hversion hcount => ?_
  have hnext : Ordinary (.appendNext c current next) :=
    ⟨hchain,hversion ▸ Nat.lt_succ_self current.version,hcount⟩
  refine uses_bind (uses_write trivial) fun _ => uses_bind (uses_undoing (uses_write trivial))
    fun _ => ?_
  refine uses_bind (hsimilar next) fun _ => uses_bind (uses_undoing (uses_write hnext)) fun _ => ?_
  exact uses_bind (uses_write trivial) fun _ => uses_bind (uses_attempt (uses_write trivial))
    fun _ => uses_pure

theorem uses_remember (record : AgedEpisode) : Uses Ordinary (remember env c now record).run := by
  refine uses_bind uses_raise fun _ => uses_bind (uses_look _) fun admission => ?_
  cases admission with
  | refuse error => exact uses_throw
  | merge target =>
    refine uses_bind (uses_episodicEditTarget env c target) fun current => ?_
    exact uses_bind uses_require fun _ => uses_appendEpisodicSuccessor env c now 0 current _
  | accept =>
    refine uses_bind (uses_write trivial) fun _ => uses_bind (uses_write trivial) fun _ => ?_
    refine uses_bind (uses_undoing (uses_write trivial)) fun _ =>
      uses_bind (uses_undoing (uses_write trivial)) fun _ => ?_
    exact uses_bind (uses_attempt (uses_write trivial)) fun _ => uses_write trivial

theorem uses_decayEach (i : ℕ) (rs : List AgedEpisode) :
    Uses Ordinary (decayEach env c now i rs).run := by
  induction rs generalizing i with
  | nil => exact uses_pure
  | cons r rest ih =>
    have hone : Uses Ordinary (decayOne env c now i r).run := by
      unfold decayOne
      split
      · exact uses_appendEpisodicSuccessor env c now i r _
      · exact uses_pure
    exact uses_bind hone fun _ => ih (i+1)

theorem uses_deleteEpisode (id : MemoryId) : Uses Ordinary (deleteEpisode env c id).run := by
  refine uses_bind (uses_readEpisodicRecord id) fun record => ?_
  refine uses_bind (uses_episodicHeadForLogicalId env c _) fun head => ?_
  refine uses_bind uses_raise fun _ => uses_bind (uses_look _) fun history => ?_
  refine uses_bind (uses_forEach (fun _ => ?_) _) fun _ => uses_write trivial
  exact uses_bind (uses_attempt (uses_write trivial)) fun _ => uses_pure

theorem uses_answer (request : Request) (hflush : request ≠ .flush)
    (haccess : ∀ id, request ≠ .recordAccess id) :
    Uses Ordinary (answer env c now request).run := by
  cases request with
  | remember record => exact uses_map (uses_remember env c now record)
  | archive id =>
    refine uses_map (uses_bind (uses_episodicEditTarget env c id) fun head => ?_)
    exact uses_bind uses_raise fun _ => uses_appendEpisodicSuccessor env c now 0 head _
  | update id f =>
    exact uses_map (uses_bind (uses_episodicEditTarget env c id) fun head =>
      uses_appendEpisodicSuccessor env c now 0 head _)
  | decay => exact uses_map (uses_bind (uses_look _) fun rs => uses_decayEach env c now 0 rs)
  | delete id => exact uses_map (uses_deleteEpisode env c id)
  | access id => exact uses_map (uses_write trivial)
  | flush => exact absurd rfl hflush
  | recordAccess id => exact absurd rfl (haccess id)
  | get id => exact uses_map (uses_readEpisodicRecord id)
  | head k => exact uses_map (uses_episodicHeadForLogicalId env c k)
  | liveHeads ks => exact uses_map (uses_liveEpisodicHeadsForLogicalIds c ks)
end

def State.TakenIs (c : ℕ) (ids : List MemoryId) (s : State) : Prop :=
  s.taken.filter (·.1 == c) = ids.map (c,·)

def State.HeldIs (c : ℕ) (rows : List AgedEpisode) (s : State) : Prop :=
  ((s.held.filter (·.1 == c)).map Prod.snd).Perm rows

def State.Clear (c : ℕ) (s : State) : Prop := s.TakenIs c [] ∧ s.HeldIs c []

/-- No row to write again, and no access to apply but to episodes that are gone. -/
def State.Idle (c : ℕ) (s : State) : Prop := (∀ x ∈ s.taken, x.1 = c → s.Dead x.2) ∧ s.HeldIs c []

variable {call : Timestamp × Request}

theorem State.TakenIs.mem (h : s.TakenIs c ids) {x : ℕ × MemoryId} (hx : x ∈ s.taken)
    (hc : x.1 = c) : x.2 ∈ ids := by
  have hin : x ∈ ids.map (c,·) := h ▸ mem_filter.mpr ⟨hx,beq_iff_eq.mpr hc⟩
  obtain ⟨i,hi,rfl⟩ := mem_map.mp hin
  exact hi

theorem State.TakenIs.count (h : s.TakenIs c ids) (id : MemoryId) :
    s.taken.count (c,id) = ids.count id := by
  have hfilter : (s.taken.filter (·.1 == c)).count (c,id) = s.taken.count (c,id) :=
    count_filter (by simp)
  rw [← hfilter,h]
  exact count_map_of_injective ids (c,·) (fun _ _ h => congrArg Prod.snd h) id

theorem State.Clear.idle (h : s.Clear c) : s.Idle c :=
  ⟨fun _ hx hc => (not_mem_nil (h.1.mem hx hc)).elim,h.2⟩

theorem stable_takenIs : Stable (State.Accounted view) Leaves c (State.TakenIs c ids) :=
  fun _ _ _ hd _ h hleaves =>
  (hleaves.taken c hd.symm).trans h

theorem stable_heldIs : Stable (State.Accounted view) Leaves c (State.HeldIs c rows) :=
  fun _ s t hd _ h hleaves => by
  rw [State.HeldIs,hleaves.held c hd.symm]
  exact h

theorem lasting_dead : Lasting (State.Accounted view) Leaves fun s => s.Dead id := by
  intro d s t hs h hleaves
  obtain ⟨⟨i,k⟩,hborn,rfl⟩ := mem_map.mp h.1
  refine ⟨map_subset _ hleaves.born h.1,fun x hx hid => ?_⟩
  -- the id has one chain, before and now
  have hchain := inj_on_of_nodup_map hleaves.ids hx (hleaves.born _ hborn) hid
  rw [hchain]
  exact hleaves.barren k (mem_map.mpr ⟨_,hborn,rfl⟩) (h.2 _ hborn rfl)

theorem lasting_all_dead {P : MemoryId → Prop} :
    Lasting (State.Accounted view) Leaves fun s => ∀ id, P id → s.Dead id :=
  fun d s t hs h hleaves id hid => lasting_dead d s t hs (h id hid) hleaves

theorem stable_idle : Stable (State.Accounted view) Leaves c (State.Idle c) := by
  intro d s t hd hs h hleaves
  refine ⟨fun x hx hc => ?_,stable_heldIs d s t hd hs h.2 hleaves⟩
  have hin : x ∈ s.taken.filter (·.1 == c) := hleaves.taken c hd.symm ▸ mem_filter.mpr ⟨hx,
    beq_iff_eq.mpr hc⟩
  exact lasting_dead d s t hs (h.1 x (mem_of_mem_filter hin) hc) hleaves

abbrev Applying {α : Type} (view : View) (c : ℕ) (call : Timestamp × Request) (F : α → State → Prop)
    (m : Act α) (s : State) : Prop :=
  Guarded effect (view.MayApply c call) (State.Accounted view) Leaves c F (State.Idle c) m s

theorem clear_ordinary (ho : Ordinary o) (hs : s.Accounted view) (h : s.Clear c)
    (hok : view.MayApply c call s o true) :
    (effect o s).Accounted view ∧ Leaves c s (effect o s) ∧ (effect o s).Clear c := by
  obtain ⟨hnext,hleaves⟩ := accounted_effect hs (hok.1.1 rfl) ho
  refine ⟨hnext,hleaves,?_⟩
  cases o <;> first | exact h | exact ho.elim

theorem applying_ordinary (hm : Uses Ordinary m.run) (hs : s.Accounted view) (h : s.Clear c) :
    Applying view c call (fun _ => State.Idle c) m s := by
  refine Safe.mono hs (hm.safe (stable_takenIs.and stable_heldIs)
    (fun o t ho ht hclear hok => clear_ordinary ho ht hclear hok) h) fun x t _ hx => ?_
  cases x with
  | ok a => exact State.Clear.idle hx
  | error e => exact State.Clear.idle hx

/-- A flush goes on with the rows that it finds, and the other ids are gone. -/
structure State.Found (c : ℕ) (ids : List MemoryId) (chunk : List MemoryId)
    (found : List AgedEpisode) (s : State) : Prop where
  taken : s.TakenIs c ids
  held : s.HeldIs c []
  sub : (found.map (·.id)).Sublist chunk
  gone : ∀ id, id ∈ chunk ∧ id ∉ found.map (·.id) → s.Dead id

theorem filterMap_find_sublist (s : Store AgedEpisode) (ids : List MemoryId) :
    ((ids.filterMap s.find).map (·.id)).Sublist ids := by
  induction ids with
  | nil => exact List.Sublist.slnil
  | cons id rest ih =>
    cases h : s.find id with
    | none =>
      rw [filterMap_cons_none h]
      exact ih.cons id
    | some r =>
      rw [filterMap_cons_some h,map_cons,show r.id = id from (Store.find_eq_some h).2]
      exact ih.cons_cons id

theorem applying_readEpisodicRecordsBatch (chunks : List (List MemoryId)) (hs : s.Accounted view)
    (htaken : s.TakenIs c ids) (hheld : s.HeldIs c []) :
    Applying view c call (fun found => State.Found c ids chunks.flatten found)
    (readEpisodicRecordsBatch chunks) s := by
  induction chunks generalizing s with
  | nil => exact ⟨htaken,hheld,List.Sublist.slnil,fun _ h => nomatch h.1⟩
  | cons chunk rest ih =>
    refine guarded_bind hs (guarded_request
      (F := fun u t => State.Found c ids chunk (chunk.filterMap u.episodes.find) t)
      (fun t => t.TakenIs c ids ∧ t.HeldIs c []) ⟨htaken,hheld⟩ (stable_takenIs.and stable_heldIs)
      (fun t ht hnow hok => ⟨ht,Leaves.of_same t ht c,hnow.1,hnow.2,
        filterMap_find_sublist _ _,fun id hid => ?_⟩) fun t _ _ hfails => ?_) fun u t ht h => ?_
    · refine (hok.1.1 rfl id hid.1).resolve_left fun hrow => hid.2 ?_
      obtain ⟨r,hr,rfl⟩ := mem_map.mp hrow
      obtain ⟨x,hx⟩ : ∃ x, t.episodes.find r.id = some x := by
        refine Option.isSome_iff_exists.mp (find?_isSome.mpr ⟨r,hr,?_⟩)
        exact beq_self_eq_true r.id
      exact mem_map.mpr ⟨x,mem_filterMap.mpr ⟨r.id,hid.1,hx⟩,(Store.find_eq_some hx).2⟩
    · cases (hfails.1.2 rfl).2
    · refine guarded_bind ht (guarded_lasting lasting_all_dead ht h.gone (ih ht h.taken h.held))
        fun others v _ h' => ?_
      refine ⟨h'.1.taken,h'.1.held,?_,fun id hid => ?_⟩
      · rw [map_append]
        exact h.sub.append h'.1.sub
      · rw [flatten_cons,map_append,mem_append,mem_append,not_or] at hid
        rcases hid.1 with hin | hin
        · exact h'.2 id ⟨hin,hid.2.1⟩
        · exact h'.1.gone id ⟨hin,hid.2.2⟩

theorem applying_dropRows (chunks : List (List AgedEpisode)) (done : List AgedEpisode)
    (hs : s.Accounted view)
    (hids : (chunks.flatten.map (·.id)).Nodup) (htaken : s.TakenIs c ids) (hheld : s.HeldIs c done) :
    Applying view c call (fun _ t => t.TakenIs c ids ∧ t.HeldIs c (done++chunks.flatten))
      (forEach (fun rows => write (.dropRows c rows)) chunks) s := by
  induction chunks generalizing s done with
  | nil => exact ⟨htaken,by rwa [flatten_nil,append_nil]⟩
  | cons chunk rest ih =>
    rw [flatten_cons,map_append] at hids
    refine guarded_bind hs (guarded_map (G := fun _ t => State.TakenIs c ids t ∧
      State.HeldIs c (done++chunk) t) hs
      (guarded_request (fun t => State.TakenIs c ids t ∧ State.HeldIs c done t) ⟨htaken,hheld⟩
      (stable_takenIs.and stable_heldIs)
      (fun t ht hnow hok => ?_) fun t _ _ hfails => ?_)) fun _ t ht h => ?_
    · have happlies := hok.1.1 rfl
      have hnodup : (chunk.map (·.id)).Nodup := List.Nodup.of_append_left hids
      obtain ⟨hnext,hleaves⟩ := accounted_dropRows (c := c) ht happlies hnodup
      refine ⟨hnext,hleaves,hnow.1,?_⟩
      have hperm := filter_ids_perm (ht.ids.sublist ((sublist_append_left _ _).map _)) hnodup
        fun r hr => (happlies r hr).1.1
      change ((List.filter _ (t.held++_)).map Prod.snd).Perm _
      rw [filter_append,map_append]
      refine List.Perm.append hnow.2 ?_
      rw [filter_eq_self.mpr,map_map]
      · exact (List.Perm.of_eq (map_id _)).trans hperm
      · intro x hx
        obtain ⟨y,-,rfl⟩ := mem_map.mp hx
        exact beq_self_eq_true c
    · cases (hfails.1.2 rfl).2
    · have hrest := ih (done++chunk) ht (List.Nodup.of_append_right hids) h.1 h.2
      rwa [append_assoc] at hrest

theorem lookup_counts (accesses : List MemoryId) (h : id ∈ accesses) :
    ((counts accesses).lookup id).getD 0 = accesses.count id := by
  have hlookup : ∀ l : List MemoryId, id ∈ l → (l.map fun i => (i,accesses.count i)).lookup id =
    some (accesses.count id) := by
    intro l hl
    induction l with
    | nil => cases hl
    | cons i rest ih =>
      rw [map_cons,lookup_cons]
      split
      next heq => rw [beq_iff_eq.mp heq]
      next hne =>
        refine ih ((mem_cons.mp hl).resolve_left fun heq => ?_)
        rw [heq,beq_self_eq_true] at hne
        cases hne
  rw [counts,hlookup _ (mem_dedup.mpr h)]
  rfl

theorem flatten_go (n : ℕ) (l : List α) (chunk : Array α) (chunks : Array (List α)) :
    (List.toChunks.go n l chunk chunks).flatten = chunks.toList.flatten++chunk.toList++l := by
  induction l generalizing chunk chunks with
  | nil => simp [List.toChunks.go]
  | cons a rest ih =>
    unfold List.toChunks.go
    split
    · rw [ih]
      simp
    · rw [ih]
      simp

theorem flatten_toChunks (n : ℕ) (l : List α) : (l.toChunks n).flatten = l := by
  unfold List.toChunks
  split
  · rfl
  · simp
  · rw [flatten_go]
    simp

/-- A flush ends with rows written and accesses applied, but for episodes that are gone. -/
theorem applying_applyEpisodeAccessCounts (hs : s.Accounted view) (htaken : s.TakenIs c ids)
    (hheld : s.HeldIs c []) :
    Applying view c call (fun _ => State.Idle c)
    (applyEpisodeAccessCounts c call.1 (counts ids)) s := by
  have hkeys : (counts ids).map Prod.fst = ids.dedup := by
    rw [counts,map_map]
    exact map_id _
  unfold applyEpisodeAccessCounts
  split
  next hempty =>
    have hnone : ids = [] := by simpa [counts] using hempty
    subst hnone
    exact State.Clear.idle ⟨htaken,hheld⟩
  · refine guarded_bind hs (applying_readEpisodicRecordsBatch _ hs htaken hheld) fun found t ht h => ?_
    obtain ⟨htaken,hheld,hsub,hgone⟩ := h
    rw [flatten_toChunks chunkSize,hkeys] at hsub hgone
    have hdead : ∀ id, id ∈ ids ∧ id ∉ found.map (·.id) → t.Dead id := fun id hid =>
      hgone id ⟨mem_dedup.mpr hid.1,hid.2⟩
    split
    next hempty =>
      have hnone : found = [] := List.isEmpty_iff.mp hempty
      subst hnone
      exact ⟨fun x hx hc => hdead x.2 ⟨htaken.mem hx hc,not_mem_nil⟩,hheld⟩
    · have hfound : (((found.toChunks chunkSize).flatten).map (·.id)).Nodup := by
        rw [flatten_toChunks chunkSize]
        exact (nodup_dedup ids).sublist hsub
      refine guarded_bind ht (guarded_lasting lasting_all_dead ht hdead
        (applying_dropRows _ [] ht hfound htaken hheld)) fun _ u hu h => ?_
      rw [flatten_toChunks chunkSize] at h
      obtain ⟨⟨htaken,hheld⟩,hdead⟩ := h
      refine guarded_map hu (guarded_request (fun v => (v.TakenIs c ids ∧ v.HeldIs c found) ∧
        ∀ id, id ∈ ids ∧ id ∉ found.map (·.id) → v.Dead id) ⟨⟨htaken,hheld⟩,hdead⟩
        ((stable_takenIs.and stable_heldIs).and lasting_all_dead.stable) (fun v hv hnow hok => ?_)
        fun _ _ _ hfails => ?_)
      · have hrows : (found.map fun r => recordAccesses call.1 r (((counts ids).lookup r.id).getD 0)) =
            found.map (v.counted c call.1) := by
          refine map_congr_left fun r hr => ?_
          have hin : r.id ∈ ids := mem_dedup.mp (hsub.subset (mem_map_of_mem hr))
          rw [State.counted,hnow.1.1.count,lookup_counts ids hin]
        obtain ⟨hnext,hleaves⟩ := accounted_appendRows hv call hok.2 hnow.1.2 hrows
        refine ⟨hnext,hleaves,fun x hx hc => ?_,?_⟩
        · obtain ⟨hx,hnot⟩ := mem_filter.mp hx
          refine lasting_dead c v _ hv (hnow.2 x.2 ⟨hnow.1.1.mem hx hc,fun hin => ?_⟩) hleaves
          have hids : (found.map fun r => recordAccesses call.1 r
              (((counts ids).lookup r.id).getD 0)).map (·.id) = found.map (·.id) := by
            rw [map_map]
            exact map_congr_left fun r _ => (recordAccesses_eq call.1 r _).1
          rw [hids,hc,beq_self_eq_true,contains_iff_mem.mpr hin] at hnot
          cases hnot
        · change ((List.filter _ (List.filter _ v.held)).map Prod.snd).Perm []
          rw [filter_filter,filter_eq_nil_iff.mpr]
          · exact List.Perm.nil
          · intro x _
            by_cases hx : x.1 = c
            · simp
            · simp
      · cases (hfails.1.2 rfl).2

variable {p : Episodes} (env : Env)

def StopsClean (p : Episodes) : Event (Timestamp × Request) → Prop
  | .crash => p.store.held = []
  | _ => True

instance (p : Episodes) (e : Event (Timestamp × Request)) : Decidable (StopsClean p e) := by
  cases e <;> unfold StopsClean <;> infer_instance

def Accountable (events : List (Event (Timestamp × Request))) : Prop :=
  Admissible (Pool.stepWith effect State.restart (serve env))
    (fun p e => Meets MayApply p e ∧ StopsClean p e) ⟨State.empty,[]⟩ events
  deriving Decidable

def SteadyRun (events : List (Event (Timestamp × Request))) : Prop :=
  Admissible (Pool.stepWith effect State.restart (serve env)) (Meets Steady) ⟨State.empty,[]⟩ events
  deriving Decidable

variable {env}

theorem applying_flush (hs : s.Accounted view) (h : s.Clear c) :
    Applying view c call (fun _ => State.Idle c) (flushEpisodicAccess c call.1) s := by
  refine guarded_bind hs (guarded_request (F := fun u t => State.TakenIs c u.accesses t ∧
    State.HeldIs c [] t)
    (State.Clear c) h (stable_takenIs.and stable_heldIs) (fun t ht hnow _ => ?_) fun _ _ hnow _ =>
    hnow.idle) fun u t ht h => applying_applyEpisodeAccessCounts ht h.1 h.2
  obtain ⟨hnext,hleaves⟩ := accounted_drain (c := c) ht
  refine ⟨hnext,hleaves,?_,hnow.2⟩
  change (t.taken++t.accesses.map (c,·)).filter _ = _
  rw [filter_append,hnow.1,filter_eq_self.mpr]
  · rfl
  · intro x hx
    obtain ⟨i,-,rfl⟩ := mem_map.mp hx
    exact beq_self_eq_true c

theorem applying_recordEpisodeAccess (id : MemoryId) (hs : s.Accounted view) (h : s.Clear c) :
    Applying view c call (fun _ => State.Idle c) (recordEpisodeAccess c call.1 id) s := by
  have hcounts : [(id,1)] = counts [id] := by simp [counts]
  refine guarded_bind hs (guarded_map (G := fun _ t => State.TakenIs c [id] t ∧ State.HeldIs c [] t) hs
    (guarded_request (State.Clear c) h (stable_takenIs.and stable_heldIs) (fun t ht hnow hok => ?_)
      fun _ _ hnow _ => hnow.idle)) fun _ t ht h => ?_
  · obtain ⟨hnext,hleaves⟩ := accounted_beginAccess (c := c) ht (hok.1.1 rfl)
    refine ⟨hnext,hleaves,?_,hnow.2⟩
    change (t.taken++[(c,id)]).filter _ = _
    rw [filter_append,hnow.1,filter_singleton,beq_self_eq_true]
    rfl
  · rw [hcounts]
    exact applying_applyEpisodeAccessCounts ht h.1 h.2

theorem applying_answer (request : Request) (hs : s.Accounted view) (h : s.Clear c) :
    Applying view c call (fun _ => State.Idle c) (answer env c call.1 request) s := by
  by_cases hflush : request = .flush
  · subst hflush
    exact guarded_map hs (applying_flush hs h)
  · by_cases haccess : ∃ id, request = .recordAccess id
    · obtain ⟨id,rfl⟩ := haccess
      exact guarded_map hs (applying_recordEpisodeAccess id hs h)
    · exact applying_ordinary (uses_answer env c call.1 request hflush fun id hid =>
        haccess ⟨id,hid⟩) hs h

theorem sound_applying : Sound effect view.MayApply (State.Accounted view) Leaves
    (fun c _ _ => State.Idle c) State.Clear (serve env) := by
  refine ⟨fun _ _ _ => stable_idle,fun _ => stable_takenIs.and stable_heldIs,fun c call s hs h => ?_⟩
  refine Safe.mono hs (applying_answer call.2 hs h) fun x t _ hx => ?_
  cases x with
  | ok a => exact hx
  | error e => exact hx

theorem outlives_accounted : Outlives (State.Accounted view)
    (fun (c : ℕ) (_ : Timestamp × Request) (_ : Except HirnError Answer) => State.Idle c)
    State.Clear State.restart fun _ => True :=
  ⟨fun _ hs _ => {hs with accesses := fun _ h => (not_mem_nil h).elim,counts := fun h => nomatch h},
    fun _ _ _ _ _ _ h => h,fun _ _ _ _ h => h⟩

/-- The calls run well, and those that were stopped were not writing rows. -/
structure Orderly (view : View) (p : Episodes) : Prop where
  running : Running effect view.MayApply (State.Accounted view) Leaves (fun c _ _ => State.Idle c)
    State.Clear p
  stopped : ∀ c call, p.tasks[c]? = some (call,none) → p.store.HeldIs c [] ∧ p.store.restarted = true

theorem Orderly.step (h : Orderly view p) (hok : Meets view.MayApply p e)
    (hstops : StopsClean p e) : Orderly view (p.stepWith effect State.restart (serve env) e) := by
  refine ⟨running_stepWith sound_applying outlives_accounted p e hok (fun _ => trivial) h.running,
    stopped_stepWith (Q := fun c s => State.HeldIs c [] s ∧ s.restarted = true)
    (fun c d s t hd hs hQ hleaves => ?_)
      h.running e hok (fun he c => ⟨?_,rfl⟩) h.stopped⟩
  · exact ⟨stable_heldIs d s t hd hs hQ.1 hleaves,hleaves.restarted.trans hQ.2⟩
  · subst he
    change ((p.store.held.filter _).map Prod.snd).Perm []
    rw [show p.store.held = [] from hstops]
    exact List.Perm.nil

theorem accounted_empty : State.empty.Accounted view := by
  constructor <;> simp [State.empty,State.all,Store.empty,Newest]

theorem orderly_after (h : Admissible (Pool.stepWith effect State.restart (serve env))
      (fun p e => Meets view.MayApply p e ∧ StopsClean p e) ⟨State.empty,[]⟩ events) :
    Orderly view (after env events) := by
  refine invariant (I := Orderly view) (fun p e hok hp => hp.step hok.1 hok.2) ⟨?_,by simp⟩ h
  exact running_nil accounted_empty fun c => ⟨rfl,List.Perm.nil⟩

theorem Orderly.quiescent (h : Orderly view p) (hquiescent : Quiescent p) (c : ℕ) :
    p.store.HeldIs c [] ∧ (p.store.restarted = false → p.store.Idle c) := by
  rcases lt_or_ge c p.tasks.length with hlt | hge
  · rcases hquiescent _ (getElem_mem hlt) with hnone | ⟨reply,hreply⟩
    · obtain ⟨hheld,hrestarted⟩ := h.stopped c p.tasks[c].1
        (List.getElem?_eq_some_iff.mpr ⟨hlt,Prod.ext rfl hnone⟩)
      exact ⟨hheld,fun hnot => absurd (hrestarted.symm.trans hnot) nofun⟩
    · have hidle := h.running.tasks c p.tasks[c].1 (.done reply)
        (List.getElem?_eq_some_iff.mpr ⟨hlt,Prod.ext rfl hreply⟩)
      exact ⟨hidle.2,fun _ => hidle⟩
  · have hclear := h.running.fresh c hge
    exact ⟨hclear.2,fun _ => hclear.idle⟩

theorem held_eq_nil (h : ∀ c, s.HeldIs c []) : s.held = [] := by
  refine eq_nil_iff_forall_not_mem.mpr fun x hx => ?_
  have hmem : x.2 ∈ (s.held.filter (·.1 == x.1)).map Prod.snd :=
    mem_map_of_mem (mem_filter.mpr ⟨hx,beq_self_eq_true x.1⟩)
  exact not_mem_nil ((h x.1).mem_iff.mp hmem)

theorem Orderly.all_eq (h : Orderly view p) (hquiescent : Quiescent p) :
    p.store.all = p.store.episodes.rows := by
  rw [State.all,held_eq_nil fun c => (h.quiescent hquiescent c).1,map_nil,append_nil]

theorem Accountable.untouched (h : Accountable env events) :
    Orderly View.untouched (after env events) := by
  refine orderly_after (h.mono fun p e hok => ⟨?_,hok.2⟩)
  cases e with
  | step c succeeds =>
    intro x hx
    refine ⟨hok.1 x hx,?_⟩
    cases x.2 <;> first | exact trivial | exact fun _ _ _ => rfl
  | start _ => trivial
  | crash => trivial

theorem Accountable.bare (h : Accountable env events) (hsteady : SteadyRun env events) :
    Orderly View.bare (after env events) := by
  refine orderly_after ((h.and hsteady).mono fun p e hok => ⟨?_,hok.1.2⟩)
  cases e with
  | step c succeeds =>
    intro x hx
    refine ⟨hok.1.1 x hx,?_⟩
    have hrows := hok.2 x hx
    cases ho : x.2 with
    | appendRows d rows =>
      rw [ho] at hrows
      intro y hy hc
      obtain ⟨htime,hstability⟩ := hrows y hy hc
      change ({y.2 with accessCount := 0,lastAccessed := 0,updatedAt := x.1.1,stability := min _ _} : AgedEpisode) = _
      rw [← htime,hstability]
      rfl
    | _ => trivial
  | start _ => trivial
  | crash => trivial

/-- In every run whose steps may be made, at rest no row is lost or comes back, and without a restart
each head counts, with those pending, every access to its chain once. Where the flushes find steady
rows, the rows are those of everything but accesses. -/
theorem accesses_are_counted_once {env : Env} (events : List (Event (Timestamp × Request)))
    (h : Accountable env events) (hquiescent : Quiescent (after env events)) :
    ((after env events).store.episodes.rows.map untouched).Perm
      ((after env events).store.plain.map untouched) ∧
    ((after env events).store.restarted = false →
      ∀ r, Newest (after env events).store.episodes.rows r →
      r.accessCount + onChain (after env events).store.born r.logicalMemoryId
          (after env events).store.accesses =
        (after env events).store.initial r.logicalMemoryId +
          onChain (after env events).store.born r.logicalMemoryId (after env events).store.recorded) ∧
    (SteadyRun env events →
      ((after env events).store.episodes.rows.map bare).Perm
        ((after env events).store.plain.map bare)) := by
  have horderly := h.untouched
  have hs := horderly.running.holds
  have hall := horderly.all_eq hquiescent
  refine ⟨hall ▸ hs.plain,fun hrestarted r hr => ?_,fun hsteady => ?_⟩
  · rw [← hall] at hr
    have hcounts := hs.counts hrestarted r hr
    have htaken : onChain (after env events).store.born r.logicalMemoryId
        ((after env events).store.taken.map Prod.snd) = 0 := by
      refine countP_eq_zero.mpr fun id hid htrue => ?_
      obtain ⟨x,hx,rfl⟩ := mem_map.mp hid
      have hdead := ((horderly.quiescent hquiescent x.1).2 hrestarted).1 x hx rfl
      exact hdead.2 _ (of_decide_eq_true htrue) rfl r hr.1 rfl
    rw [onChain_append_ids,htaken] at hcounts
    exact hcounts
  · have hplain := (h.bare hsteady).running.holds.plain
    rw [hall] at hplain
    exact hplain

def steadyEpisode : AgedEpisode := {Aging.deployment (1/2) with stability := Aging.maxStabilityHours,updatedAt := 20}

/-- Two accesses are flushed while the episode of another chain is deleted. -/
def flushedRun : List (Event (Timestamp × Request)) :=
  List.flatten [alone 0 7 (10,.remember steadyEpisode),
    alone 1 7 (11,.remember {Aging.deployment (1/2) with id := 5,logicalMemoryId := 5,revisionId := 5}),
    alone 2 1 (20,.access 0),alone 3 1 (20,.access 0),alone 4 2 (20,.flush),alone 5 7
    (20,.delete 5),List.replicate 2 (.step 4 true)]

theorem flushed_accesses_are_counted_once :
    (after plainEnv flushedRun).store.episodes.rows.map (fun r => (r.id,r.accessCount)) = [(0,2)] ∧
    ((after plainEnv flushedRun).store.episodes.rows.map bare).Perm
    ((after plainEnv flushedRun).store.plain.map bare) := by
  have hrun : Accountable plainEnv flushedRun := by decide +kernel
  have hcounted := accesses_are_counted_once flushedRun hrun (by decide +kernel)
  exact ⟨by decide +kernel,hcounted.2.2 (by decide +kernel)⟩

/-- A flush has read an episode; it is deleted, and its row written again. -/
theorem deleted_episode_resurrected :
    (after plainEnv (List.flatten [alone 0 7 (10,.remember (Aging.deployment (1/2))),
    alone 1 1 (20,.access 0),
      alone 2 2 (30,.flush),alone 3 7 (31,.delete 0),List.replicate 2
      (.step 2 true)])).store.plain = [] ∧
    (after plainEnv (List.flatten [alone 0 7 (10,.remember (Aging.deployment (1/2))),
    alone 1 1 (20,.access 0),
      alone 2 2 (30,.flush),alone 3 7 (31,.delete 0),List.replicate 2
      (.step 2 true)])).store.episodes.rows.map (·.id) = [0] := by
  decide +kernel
end EpisodeCalls
end Hirn.Engine
