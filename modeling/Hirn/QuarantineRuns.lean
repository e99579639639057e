import Hirn.QuarantineReviews

/-! What every run of quarantine reviews keeps to, with the reviews interleaved call by call. -/
namespace Hirn.Quarantine
open Engine Calls Runs List

def QuarantineRow.Receipted (row : QuarantineRow) (s : Store) : Prop :=
  ∀ review receipt, row.generatedReview = some review → review.rollbackReceipt = some receipt →
    row.content = .semantic ∧ receipt = [row.memoryId] ∨
      row.content = .reconcileProposal ∧ ∀ id ∈ receipt, id ∈ s.applied

/-- The ids of the rows, and of those that are being written again. -/
def Store.ids (s : Store) : List MemoryId := s.rows.map (·.memoryId)++s.holes.map (·.2.1)

structure Store.Consistent (s : Store) : Prop where
  distinct : s.ids.Nodup
  entered : ∀ id, id ∈ s.entered.map Prod.fst ↔ id ∈ s.ids
  keys : (s.entered.map Prod.fst).Nodup
  contents : ∀ row ∈ s.rows, (row.memoryId,row.content) ∈ s.entered
  moves : ∀ m ∈ s.moves, Moves m.2.1 m.2.2 = true
  stored : ∀ row ∈ s.rows, row.status = .pending → row.content ≠ .reconcileProposal →
    row.memoryId ∈ s.nodes ∨ row.memoryId ∈ s.promotions → row.memoryId ∈ s.main
  applying : ∀ row ∈ s.rows, row.status = .pending → row.content = .reconcileProposal →
    row.memoryId ∈ s.promotions → ∃ c, (c,row.memoryId) ∈ s.owed
  once : s.promotions.Nodup
  promoted : ∀ id ∈ s.promotions, id ∈ s.entered.map Prod.fst
  apart : ∀ id ∈ s.applied, id ∉ s.entered.map Prod.fst
  agrees : ∀ row ∈ s.rows, row.content ≠ .reconcileProposal →
    (row.memoryId ∈ s.main ↔ row.status = .approved) ∨ ∃ c, (c,row.memoryId) ∈ s.owed
  receipts : ∀ row ∈ s.rows, row.Receipted s

/-- What one call may do to the store. -/
structure Guarantee (d : ℕ) (s t : Store) : Prop where
  holes : ∀ x : ℕ × MemoryId × QuarantineStatus, x.1 ≠ d → (x ∈ t.holes ↔ x ∈ s.holes)
  owed : ∀ x : ℕ × MemoryId, x.1 ≠ d → (x ∈ t.owed ↔ x ∈ s.owed)
  paid : ∀ id, (d,id) ∈ s.owed → (d,id) ∈ t.owed ∨ ∃ st, (d,id,st) ∈ s.holes
  entered : ∀ x ∈ s.entered, x ∈ t.entered
  applied : ∀ id ∈ s.applied, id ∈ t.applied
  pending : ∀ row ∈ t.rows, row.status = .pending → row ∈ s.rows ∨
    row.memoryId ∉ s.entered.map Prod.fst
  lost : ∀ id ∈ s.entered.map Prod.fst, id ∈ s.main → id ∈ t.main ∨
    ∃ row ∈ s.rows, row.memoryId = id ∧ row.status = .approved
  gained : ∀ id ∈ s.entered.map Prod.fst, id ∈ t.main → id ∈ s.main ∨
    ∃ row ∈ s.rows, row.memoryId = id ∧ row.status = .pending
  promotions : ∀ id ∈ t.promotions, id ∈ s.promotions ∨ ∃ row ∈ s.rows, row.memoryId = id ∧
    row.status = .pending

/-- The row's status goes with the main store, or another call has it to complete. -/
def Store.Suits (c : ℕ) (row : QuarantineRow) (s : Store) : Prop :=
  row.content ≠ .reconcileProposal →
    (row.memoryId ∈ s.main ↔ row.status = .approved) ∨ ∃ d, d ≠ c ∧ (d,row.memoryId) ∈ s.owed

/-- What a program knows when it makes a call. -/
def Own (c : ℕ) (s : Store) : StoreOp → Prop
  | .appendRow row => row.status = .pending ∧ row.Receipted s
  | .deleteRow d _ _ _ => d = c ∧ ∀ x ∈ s.holes, x.1 ≠ c
  | .putRow d row => d = c ∧ row.status ≠ .pending ∧ row.Receipted s ∧
      (row.memoryId,row.content) ∈ s.entered ∧
      (∃ st, (c,row.memoryId,st) ∈ s.holes) ∧
      (∀ st, (c,row.memoryId,st) ∈ s.holes → Moves st row.status = true) ∧ s.Suits c row
  | .promote d id => d = c ∧ ∃ content, (id,content) ∈ s.entered ∧ content ≠ .reconcileProposal
  | .reconcile d entry _ => d = c ∧ (entry,.reconcileProposal) ∈ s.entered
  | .deleteSemantic d entry id => d = c ∧ (id = entry ∨ id ∈ s.applied)
  | _ => True

variable {row : QuarantineRow} {c : ℕ} {ids : List MemoryId} {st : QuarantineStatus} {o : StoreOp}
  {entry : MemoryId} {s : Store}

section
variable {t : Store} {id : MemoryId}

theorem Guarantee.refl (d : ℕ) (s : Store) : Guarantee d s s :=
  ⟨fun _ _ => .rfl,fun _ _ => .rfl,fun _ h => .inl h,fun _ h => h,fun _ h => h,fun _ h _ => .inl h,
    fun _ _ h => .inl h,fun _ _ h => .inl h,fun _ h => .inl h⟩

variable (hs : s.Consistent)
include hs

theorem Store.Consistent.row_unique (hrow : row ∈ s.rows)
    (hrow' : row' ∈ s.rows) (h : row.memoryId = row'.memoryId) : row = row' :=
  inj_on_of_nodup_map (List.Nodup.of_append_left hs.distinct) hrow hrow' h

variable {x : ℕ × MemoryId × QuarantineStatus}

theorem Store.Consistent.hole_unique (hx : x ∈ s.holes) (hy : y ∈ s.holes)
    (h : x.2.1 = y.2.1) : x = y :=
  inj_on_of_nodup_map (List.Nodup.of_append_right hs.distinct) hx hy h

theorem Store.Consistent.no_row (hhole : (c,id,st) ∈ s.holes) (hrow : row ∈ s.rows) :
    row.memoryId ≠ id := by
  intro h
  have hdisjoint := (nodup_append'.mp hs.distinct).2.2
  exact hdisjoint (mem_map_of_mem hrow) (h ▸ mem_map_of_mem hhole)

theorem Store.Consistent.content_eq (hrow : row ∈ s.rows)
    (h : (row.memoryId,content) ∈ s.entered) : row.content = content :=
  congrArg Prod.snd (inj_on_of_nodup_map hs.keys (hs.contents row hrow) h rfl)

theorem Store.Consistent.row_entered (hrow : row ∈ s.rows) : row.memoryId ∈ s.entered.map Prod.fst :=
  mem_map.mpr ⟨_,hs.contents row hrow,rfl⟩

theorem keeps_appendRow (hadmits : s.Admits (.appendRow row)) (hown : Own c s (.appendRow row)) :
    (effect (.appendRow row) s).Consistent ∧ Guarantee c s (effect (.appendRow row) s) := by
  obtain ⟨hnew,hmain,hnodes,happlied⟩ := hadmits
  obtain ⟨hpending,hreceipted⟩ := hown
  have hids : row.memoryId ∉ s.ids := fun h => hnew ((hs.entered _).mpr h)
  have hperm : (effect (.appendRow row) s).ids.Perm (row.memoryId::s.ids) := by
    change ((s.rows++[row]).map _++_).Perm _
    rw [map_append,append_assoc]
    exact perm_middle
  refine ⟨⟨hperm.nodup_iff.mpr (nodup_cons.mpr ⟨hids,hs.distinct⟩),fun id => ?_,?_,fun r hr => ?_,
    hs.moves,
    fun r hr hp hne hin => ?_,fun r hr hp hcontent hin => ?_,hs.once,fun id hid => ?_,fun id hid =>
    ?_,fun r hr hne => ?_,fun r hr => ?_⟩,
    {Guarantee.refl c s with entered := fun x hx => mem_append_left _ hx,pending := fun r hr _ => ?_}⟩
  · rw [hperm.mem_iff,mem_cons,← hs.entered]
    change id ∈ (s.entered++[_]).map Prod.fst ↔ _
    rw [map_append,mem_append,map_singleton,mem_singleton,or_comm]
  · change ((s.entered++[_]).map Prod.fst).Nodup
    rw [map_append,map_singleton,← concat_eq_append,nodup_concat]
    exact ⟨hnew,hs.keys⟩
  · rcases mem_append.mp hr with hr | hr
    · exact mem_append_left _ (hs.contents r hr)
    · rw [mem_singleton.mp hr]
      exact mem_append_right _ (mem_singleton_self _)
  · rcases mem_append.mp hr with hr | hr
    · exact hs.stored r hr hp hne hin
    · rw [mem_singleton.mp hr] at hin
      exact (hin.elim hnodes fun h => hnew (hs.promoted _ h)).elim
  · rcases mem_append.mp hr with hr | hr
    · exact hs.applying r hr hp hcontent hin
    · rw [mem_singleton.mp hr] at hin
      exact absurd (hs.promoted _ hin) hnew
  · exact map_subset _ (subset_append_left _ _) (hs.promoted id hid)
  · change id ∉ (s.entered++[_]).map Prod.fst
    rw [map_append,mem_append,not_or]
    refine ⟨hs.apart id hid,fun h => happlied ?_⟩
    obtain rfl : id = row.memoryId := mem_singleton.mp h
    exact hid
  · rcases mem_append.mp hr with hr | hr
    · exact hs.agrees r hr hne
    · rw [mem_singleton.mp hr,hpending]
      exact .inl (iff_of_false hmain nofun)
  · rcases mem_append.mp hr with hr | hr
    · exact hs.receipts r hr
    · rw [mem_singleton.mp hr]
      exact hreceipted
  · rcases mem_append.mp hr with hr | hr
    · exact .inl hr
    · rw [mem_singleton.mp hr]
      exact .inr hnew

omit hs in
theorem mem_holes_deleteRow : x ∈ (effect (.deleteRow c id loaded st) s).holes ↔ x ∈ s.holes ∨
      ∃ r ∈ s.rows, r.memoryId = id ∧ x = (c,id,r.status) := by
  simp only [effect,mem_append,mem_map,mem_filter,beq_iff_eq,and_assoc]
  simp only [eq_comm]

omit hs in
theorem mem_rows_deleteRow : r ∈ (effect (.deleteRow c id loaded st) s).rows ↔ r ∈ s.rows ∧
    r.memoryId ≠ id := by
  simp [effect]

theorem keeps_deleteRow :
    (effect (.deleteRow c id loaded st) s).Consistent ∧
    Guarantee c s (effect (.deleteRow c id loaded st) s) := by
  have hperm : (effect (.deleteRow c id loaded st) s).ids.Perm s.ids := by
    have hsame : ((s.rows.filter (·.memoryId == id)).map fun row => (c,id,row.status)).map
        (fun x : ℕ × MemoryId × QuarantineStatus => x.2.1) = (s.rows.filter (·.memoryId == id)).map
        (·.memoryId) := by
      rw [map_map]
      refine map_congr_left fun r hr => ?_
      exact (beq_iff_eq.mp (mem_filter.mp hr).2).symm
    have hsplit := ((filter_append_perm (fun r : QuarantineRow => r.memoryId != id) s.rows).map
      (·.memoryId)).append_right (s.holes.map (·.2.1))
    change ((s.rows.filter _).map _++(s.holes++_).map _).Perm _
    rw [map_append,hsame]
    refine List.Perm.trans ?_ hsplit
    rw [map_append,append_assoc]
    refine List.Perm.append_left _ (perm_append_comm.trans (List.Perm.of_eq ?_))
    simp [bne]
  have hrow : ∀ r, r ∈ (effect (.deleteRow c id loaded st) s).rows → r ∈ s.rows :=
    fun r hr => (mem_rows_deleteRow.mp hr).1
  refine ⟨⟨hperm.nodup_iff.mpr hs.distinct,fun i => (hs.entered i).trans hperm.mem_iff.symm,hs.keys,
    fun r hr => hs.contents r (hrow r hr),hs.moves,fun r hr => hs.stored r (hrow r hr),
    fun r hr => hs.applying r (hrow r hr),hs.once,hs.promoted,hs.apart,
    fun r hr => hs.agrees r (hrow r hr),fun r hr => hs.receipts r (hrow r hr)⟩,
    {Guarantee.refl c s with holes := fun x hx => ?_,pending := fun r hr _ => .inl (hrow r hr)}⟩
  rw [mem_holes_deleteRow]
  refine or_iff_left ?_
  rintro ⟨r,-,-,rfl⟩
  exact hx rfl

omit hs in
theorem mem_owed_putRow {x : ℕ × MemoryId} :
    x ∈ (effect (.putRow c row) s).owed ↔ x ∈ s.owed ∧ x ≠ (c,row.memoryId) := by
  simp [effect]

omit hs in
theorem mem_holes_putRow : x ∈ (effect (.putRow c row) s).holes ↔ x ∈ s.holes ∧
    ¬(x.1 = c ∧ x.2.1 = row.memoryId) := by
  simp only [effect,mem_filter,Bool.not_eq_true',Bool.and_eq_false_imp,beq_iff_eq,
    beq_eq_false_iff_ne,not_and,ne_eq]

theorem keeps_putRow (hown : Own c s (.putRow c row)) :
    (effect (.putRow c row) s).Consistent ∧ Guarantee c s (effect (.putRow c row) s) := by
  obtain ⟨-,hstatus,hreceipted,hentered,⟨old,hhole⟩,hmoves,hsuits⟩ := hown
  have hrows : ∀ r ∈ (effect (.putRow c row) s).rows, r ∈ s.rows ∨ r = row := fun r hr =>
    (mem_append.mp hr).imp_right mem_singleton.mp
  have hkeeps : ∀ r ∈ s.rows, ∀ d, (d,r.memoryId) ∈ s.owed →
    (d,r.memoryId) ∈ (effect (.putRow c row) s).owed :=
    fun r hr d hd => mem_owed_putRow.mpr ⟨hd,fun h => hs.no_row hhole hr (congrArg Prod.snd h)⟩
  have hother : ∀ x ∈ (effect (.putRow c row) s).holes, x.2.1 ≠ row.memoryId := by
    intro x hx hid
    obtain ⟨hx,hne⟩ := mem_holes_putRow.mp hx
    exact hne ⟨congrArg Prod.fst (hs.hole_unique hx hhole hid),hid⟩
  have hmem : ∀ i, i ∈ (effect (.putRow c row) s).ids ↔ i ∈ s.ids := by
    intro i
    simp only [Store.ids,mem_append,mem_map]
    constructor
    · rintro (⟨r,hr,rfl⟩ | ⟨x,hx,rfl⟩)
      · rcases hrows r hr with hr | rfl
        · exact .inl ⟨r,hr,rfl⟩
        · exact .inr ⟨_,hhole,rfl⟩
      · exact .inr ⟨x,(mem_holes_putRow.mp hx).1,rfl⟩
    · rintro (⟨r,hr,rfl⟩ | ⟨x,hx,rfl⟩)
      · exact .inl ⟨r,mem_append_left _ hr,rfl⟩
      · by_cases hid : x.2.1 = row.memoryId
        · exact .inl ⟨row,mem_append_right _ (mem_singleton_self _),hid.symm⟩
        · exact .inr ⟨x,mem_holes_putRow.mpr ⟨hx,fun h => hid h.2⟩,rfl⟩
  have hdistinct : (effect (.putRow c row) s).ids.Nodup := by
    change ((s.rows++[row]).map _++List.map _ (List.filter _ s.holes)).Nodup
    rw [map_append,append_assoc]
    refine nodup_append'.mpr ⟨List.Nodup.of_append_left hs.distinct,?_,?_⟩
    · refine nodup_cons.mpr ⟨fun h => ?_,(List.Nodup.of_append_right hs.distinct).sublist
        (filter_sublist.map _)⟩
      obtain ⟨x,hx,hid⟩ := mem_map.mp h
      exact hother x hx hid
    · intro i hi hi'
      obtain ⟨r,hr,rfl⟩ := mem_map.mp hi
      rcases mem_append.mp hi' with h | h
      · exact hs.no_row hhole hr (mem_singleton.mp h)
      · obtain ⟨x,hx,hid⟩ := mem_map.mp h
        exact hs.no_row (mem_of_mem_filter hx) hr hid.symm
  refine ⟨⟨hdistinct,fun i => (hs.entered i).trans (hmem i).symm,hs.keys,fun r hr => ?_,fun m hm => ?_,
    fun r hr hp => ?_,fun r hr hp hcontent hin => ?_,hs.once,hs.promoted,hs.apart,fun r hr hne =>
    ?_,fun r hr => ?_⟩,
    {Guarantee.refl c s with holes := fun x hx => ?_,owed := fun x hx => ?_,paid := fun i hi => ?_,
                             pending := fun r hr hp => ?_}⟩
  · rcases hrows r hr with hr | rfl
    · exact hs.contents r hr
    · exact hentered
  · rcases mem_append.mp hm with hm | hm
    · exact hs.moves m hm
    · obtain ⟨x,hx,rfl⟩ := mem_map.mp hm
      obtain ⟨d,i,o⟩ := x
      obtain ⟨hx,hmine⟩ := mem_filter.mp hx
      simp only [Bool.and_eq_true,beq_iff_eq] at hmine
      exact hmoves o (hmine.1 ▸ hmine.2 ▸ hx)
  · rcases hrows r hr with hr | rfl
    · exact hs.stored r hr hp
    · exact absurd hp hstatus
  · rcases hrows r hr with hr | rfl
    · obtain ⟨d,hd⟩ := hs.applying r hr hp hcontent hin
      exact ⟨d,hkeeps r hr d hd⟩
    · exact absurd hp hstatus
  · rcases hrows r hr with hr | rfl
    · exact (hs.agrees r hr hne).imp_right fun ⟨d,hd⟩ => ⟨d,hkeeps r hr d hd⟩
    · refine (hsuits hne).imp_right ?_
      rintro ⟨d,hd,howed⟩
      exact ⟨d,mem_owed_putRow.mpr ⟨howed,fun h => hd (congrArg Prod.fst h)⟩⟩
  · rcases hrows r hr with hr | rfl
    · exact hs.receipts r hr
    · exact hreceipted
  · rw [mem_holes_putRow]
    exact and_iff_left fun h => hx h.1
  · rw [mem_owed_putRow]
    exact and_iff_left fun h => hx (congrArg Prod.fst h)
  · by_cases hid : i = row.memoryId
    · exact .inr ⟨old,hid ▸ hhole⟩
    · exact .inl (mem_owed_putRow.mpr ⟨hi,fun h => hid (congrArg Prod.snd h)⟩)
  · rcases hrows r hr with hr | rfl
    · exact .inl hr
    · exact absurd hp hstatus

def Store.bring (c : ℕ) (entry : MemoryId) (ids more : List MemoryId) (s : Store) : Store :=
  {s with main := s.main++ids,nodes := s.nodes++ids,owed := s.owed++[(c,entry)],promotions := s.promotions++[entry],
          applied := s.applied++more}

theorem keeps_bring (hrow : row ∈ s.rows) (hpending : row.status = .pending)
    (hnew : row.memoryId ∉ s.promotions)
    (hold : ∀ i ∈ s.entered.map Prod.fst, i ∈ ids → i = row.memoryId)
    (hbrought : row.content ≠ .reconcileProposal → row.memoryId ∈ ids)
    (hmore : ∀ i ∈ more, i ∉ s.entered.map Prod.fst) :
    (s.bring c row.memoryId ids more).Consistent ∧
    Guarantee c s (s.bring c row.memoryId ids more) := by
  refine ⟨{hs with stored := fun r hr hp hne hin => ?_,applying := fun r hr hp hproposal hin => ?_,once := ?_,
                   promoted := fun i hi => ?_,
                   apart := fun i hi => (mem_append.mp hi).elim (hs.apart i) (hmore i),
                   agrees := fun r hr hne => ?_,receipts := fun r hr review receipt h h' => ?_},
    {Guarantee.refl c s with owed := fun x hx => ?_,paid := fun i hi => .inl (mem_append_left _ hi),
                             applied := fun i hi => mem_append_left _ hi,
                             lost := fun i _ hi => .inl (mem_append_left _ hi),
                             gained := fun i hin hi => ?_,
                             promotions := fun i hi => ?_}⟩
  · by_cases hid : r.memoryId ∈ ids
    · exact mem_append_right _ hid
    · refine mem_append_left _ (hs.stored r hr hp hne (hin.imp (fun h => ?_) fun h => ?_))
      · exact (mem_append.mp h).resolve_right hid
      · refine (mem_append.mp h).resolve_right fun h => hid ?_
        obtain rfl := hs.row_unique hr hrow (mem_singleton.mp h)
        exact hbrought hne
  · rcases mem_append.mp hin with hin | hin
    · obtain ⟨d,hd⟩ := hs.applying r hr hp hproposal hin
      exact ⟨d,mem_append_left _ hd⟩
    · exact ⟨c,mem_append_right _ (mem_singleton.mpr (by rw [mem_singleton.mp hin]))⟩
  · change (s.promotions++[_]).Nodup
    rw [← concat_eq_append,nodup_concat]
    exact ⟨hnew,hs.once⟩
  · rcases mem_append.mp hi with hi | hi
    · exact hs.promoted i hi
    · rw [mem_singleton.mp hi]
      exact hs.row_entered hrow
  · by_cases hid : r.memoryId ∈ ids
    · exact .inr ⟨c,mem_append_right _ (mem_singleton.mpr (by rw [hold _ (hs.row_entered hr) hid]))⟩
    · refine (hs.agrees r hr hne).imp (fun h => Iff.trans ?_ h) fun ⟨d,hd⟩ => ⟨d,mem_append_left _ hd⟩
      change r.memoryId ∈ s.main++ids ↔ _
      rw [mem_append]
      exact or_iff_left hid
  · refine (hs.receipts r hr review receipt h h').imp_right fun h => ⟨h.1,fun i hi => ?_⟩
    exact mem_append_left _ (h.2 i hi)
  · change x ∈ s.owed++[_] ↔ _
    rw [mem_append]
    exact or_iff_left fun h => hx (congrArg Prod.fst (mem_singleton.mp h))
  · exact (mem_append.mp hi).imp_right fun h => ⟨row,hrow,(hold i hin h).symm,hpending⟩
  · exact (mem_append.mp hi).imp_right fun h => ⟨row,hrow,(mem_singleton.mp h).symm,hpending⟩

theorem keeps_promote (hadmits : s.Admits (.promote c id)) (hown : Own c s (.promote c id)) :
    (effect (.promote c id) s).Consistent ∧ Guarantee c s (effect (.promote c id) s) := by
  obtain ⟨⟨row,hrow,rfl,hpending⟩,hmain⟩ := hadmits
  obtain ⟨-,content,hcontent,hne⟩ := hown
  obtain rfl := hs.content_eq hrow hcontent
  have hnew : row.memoryId ∉ s.promotions := fun h => hmain (hs.stored row hrow hpending hne (.inr h))
  have heffect : effect (.promote c row.memoryId) s = s.bring c row.memoryId [row.memoryId] [] := by
    simp [effect,Store.bring]
  rw [heffect]
  exact keeps_bring hs hrow hpending hnew (fun i _ h => mem_singleton.mp h)
    (fun _ => mem_singleton_self _) nofun

theorem keeps_reconcile (hadmits : s.Admits (.reconcile c entry ids))
    (hown : Own c s (.reconcile c entry ids)) :
    (effect (.reconcile c entry ids) s).Consistent ∧
    Guarantee c s (effect (.reconcile c entry ids) s) := by
  obtain ⟨⟨row,hrow,rfl,hpending⟩,hfree,hadmits⟩ := hadmits
  have hproposal := hs.content_eq hrow hown.2
  have hnew : row.memoryId ∉ s.promotions := by
    intro h
    obtain ⟨d,hd⟩ := hs.applying row hrow hpending hproposal h
    exact hfree _ hd rfl
  exact keeps_bring hs hrow hpending hnew (fun i hin h => absurd hin (hadmits i h))
    (fun h => absurd hproposal h) hadmits

theorem keeps_deleteSemantic (hadmits : s.Admits (.deleteSemantic c entry id))
    (hown : Own c s (.deleteSemantic c entry id)) :
    (effect (.deleteSemantic c entry id) s).Consistent ∧
    Guarantee c s (effect (.deleteSemantic c entry id) s) := by
  obtain ⟨row,hrow,rfl,happroved⟩ := hadmits
  have hmain : ∀ i, i ∈ (effect (.deleteSemantic c row.memoryId id) s).main ↔ i ∈ s.main ∧ i ≠ id := by
    simp [effect]
  have howed : ∀ x, x ∈ (effect (.deleteSemantic c row.memoryId id) s).owed ↔ x ∈ s.owed ∨
      id = row.memoryId ∧ x = (c,id) := by
    intro x
    change x ∈ s.owed++(if id = row.memoryId then [(c,id)] else []) ↔ _
    split
    next h => simp [h]
    next h => simp [h]
  -- no other row has an id that a proposal has applied
  have hother : ∀ r ∈ s.rows, r.memoryId = id → id = row.memoryId ∧ r = row := by
    intro r hr hid
    rcases hown.2 with h | h
    · exact ⟨h,hs.row_unique hr hrow (hid.trans h)⟩
    · exact absurd (hid ▸ hs.row_entered hr) (hs.apart id h)
  refine ⟨{hs with stored := fun r hr hp hne hin => ?_,applying := fun r hr hp hproposal hin => ?_,
                   agrees := fun r hr hne => ?_},
    {Guarantee.refl c s with owed := fun x hx => ?_,paid := fun i hi => .inl ((howed _).mpr (.inl hi)),
                             lost := fun i hin hi => ?_,
                             gained := fun i _ hi => .inl ((hmain i).mp hi).1}⟩
  · refine (hmain _).mpr ⟨hs.stored r hr hp hne hin,fun hid => ?_⟩
    rw [(hother r hr hid).2,happroved] at hp
    cases hp
  · obtain ⟨d,hd⟩ := hs.applying r hr hp hproposal hin
    exact ⟨d,(howed _).mpr (.inl hd)⟩
  · by_cases hid : r.memoryId = id
    · exact .inr ⟨c,(howed _).mpr (.inr ⟨(hother r hr hid).1,by rw [hid]⟩)⟩
    · refine (hs.agrees r hr hne).imp (fun h => Iff.trans ?_ h) fun ⟨d,hd⟩ =>
        ⟨d,(howed _).mpr (.inl hd)⟩
      rw [hmain]
      exact and_iff_left hid
  · rw [howed]
    exact or_iff_left fun h => hx (congrArg Prod.fst h.2)
  · by_cases hid : i = id
    · rcases hown.2 with h | h
      · exact .inr ⟨row,hrow,(hid.trans h).symm,happroved⟩
      · exact absurd hin (hid ▸ hs.apart id h)
    · exact .inl ((hmain i).mpr ⟨hi,hid⟩)

theorem keeps_removeNode : (effect (.removeNode id) s).Consistent ∧
    Guarantee c s (effect (.removeNode id) s) :=
  ⟨{hs with stored := fun r hr hp hne hin => hs.stored r hr hp hne (hin.imp_left mem_of_mem_filter)},
    {Guarantee.refl c s with}⟩

theorem keeps_effect (hadmits : s.Admits o) (hown : Own c s o) :
    (effect o s).Consistent ∧ Guarantee c s (effect o s) := by
  cases o with
  | appendRow row => exact keeps_appendRow hs hadmits hown
  | deleteRow d id loaded st =>
    obtain rfl : d = c := hown.1
    exact keeps_deleteRow hs
  | putRow d row =>
    obtain rfl : d = c := hown.1
    exact keeps_putRow hs hown
  | promote d id =>
    obtain rfl : d = c := hown.1
    exact keeps_promote hs hadmits hown
  | reconcile d entry ids =>
    obtain rfl : d = c := hown.1
    exact keeps_reconcile hs hadmits hown
  | deleteSemantic d entry i =>
    obtain rfl : d = c := hown.1
    exact keeps_deleteSemantic hs hadmits hown
  | removeNode id => exact keeps_removeNode hs
  | look => exact ⟨hs,Guarantee.refl c s⟩
  | mergeInto id target => exact hadmits.elim
  | restoreHeads => exact ⟨hs,Guarantee.refl c s⟩
  | audit => exact ⟨hs,Guarantee.refl c s⟩
end

/-- The call has at most one record's row to complete, and is not writing it. -/
def Store.Owing (c : ℕ) (id : MemoryId) (s : Store) : Prop :=
  (∀ x ∈ s.owed, x.1 = c → x.2 = id) ∧ ∀ x ∈ s.holes, x.1 ≠ c

def Store.Stored (id : MemoryId) (s : Store) : Prop :=
  id ∈ s.entered.map Prod.fst ∧ ∀ row ∈ s.rows, row.memoryId = id → row.status = .pending → id ∈ s.main

def Store.Gone (id : MemoryId) (s : Store) : Prop :=
  id ∈ s.entered.map Prod.fst ∧ id ∉ s.main ∧ ∀ row ∈ s.rows, row.memoryId = id → row.status ≠ .pending

def Store.Known (row : QuarantineRow) (s : Store) : Prop := (row.memoryId,row.content) ∈ s.entered ∧
    row.Receipted s

/-- The call has deleted the row to write it again. -/
structure Store.Rewriting (c : ℕ) (row : QuarantineRow) (s : Store) : Prop where
  hole : ∃ st, (c,row.memoryId,st) ∈ s.holes
  moves : ∀ st, (c,row.memoryId,st) ∈ s.holes → Moves st row.status = true
  holes : ∀ x ∈ s.holes, x.1 = c → x.2.1 = row.memoryId
  owed : ∀ x ∈ s.owed, x.1 = c → x.2 = row.memoryId
  known : s.Known row
  suits : s.Suits c row

variable {t : Store} {id : MemoryId}

theorem Store.Free.owing (h : s.Free c) : s.Owing c id := ⟨fun x hx hc => absurd hc (h.1 x hx),h.2⟩
theorem Store.Known.mem (h : s.Known row) : row.memoryId ∈ s.entered.map Prod.fst :=
  mem_map.mpr ⟨_,h.1,rfl⟩

theorem stable_free : Stable Store.Consistent Guarantee c (Store.Free c) := by
  intro d s t hd _ hfree hguar
  refine ⟨fun x hx hc => ?_,fun x hx hc => ?_⟩
  · exact hfree.1 x ((hguar.owed x (hc.trans_ne hd.symm)).mp hx) hc
  · exact hfree.2 x ((hguar.holes x (hc.trans_ne hd.symm)).mp hx) hc

theorem stable_owing : Stable Store.Consistent Guarantee c (Store.Owing c id) := by
  intro d s t hd _ howing hguar
  refine ⟨fun x hx hc => ?_,fun x hx hc => ?_⟩
  · exact howing.1 x ((hguar.owed x (hc.trans_ne hd.symm)).mp hx) hc
  · exact howing.2 x ((hguar.holes x (hc.trans_ne hd.symm)).mp hx) hc

theorem Guarantee.mem_entered (hguar : Guarantee d s t) (h : id ∈ s.entered.map Prod.fst) :
    id ∈ t.entered.map Prod.fst := map_subset _ hguar.entered h

theorem lasting_known : Lasting Store.Consistent Guarantee (Store.Known row) := by
  intro d s t _ hknown hguar
  refine ⟨hguar.entered _ hknown.1,fun review receipt h h' => ?_⟩
  exact (hknown.2 review receipt h h').imp_right fun h => ⟨h.1,fun i hi => hguar.applied i (h.2 i hi)⟩

theorem Guarantee.old (hguar : Guarantee d s t) (hid : id ∈ s.entered.map Prod.fst)
    (hrow : row ∈ t.rows)
    (h : row.memoryId = id) (hpending : row.status = .pending) : row ∈ s.rows :=
  (hguar.pending row hrow hpending).resolve_right fun hnew => hnew (h ▸ hid)

theorem lasting_stored : Lasting Store.Consistent Guarantee (Store.Stored id) := by
  intro d s t hs hstored hguar
  refine ⟨hguar.mem_entered hstored.1,fun row hrow hid hpending => ?_⟩
  have hold := hguar.old hstored.1 hrow hid hpending
  refine (hguar.lost id hstored.1 (hstored.2 row hold hid hpending)).resolve_right ?_
  rintro ⟨row',hrow',hid',happroved⟩
  rw [← hs.row_unique hold hrow' (hid.trans hid'.symm),hpending] at happroved
  cases happroved

theorem lasting_gone : Lasting Store.Consistent Guarantee (Store.Gone id) := by
  intro d s t _ hgone hguar
  refine ⟨hguar.mem_entered hgone.1,fun hmain => ?_,fun row hrow hid hpending => ?_⟩
  · rcases hguar.gained id hgone.1 hmain with h | ⟨row,hrow,hid,hpending⟩
    · exact hgone.2.1 h
    · exact hgone.2.2 row hrow hid hpending
  · exact hgone.2.2 row (hguar.old hgone.1 hrow hid hpending) hid hpending

theorem stable_rewriting : Stable Store.Consistent Guarantee c (Store.Rewriting c row) := by
  intro d s t hd hs h hguar
  have hholes : ∀ x : ℕ × MemoryId × QuarantineStatus, x.1 = c → (x ∈ t.holes ↔ x ∈ s.holes) :=
    fun x hc => hguar.holes x (hc.trans_ne hd.symm)
  obtain ⟨st,hhole⟩ := h.hole
  have hmain : row.memoryId ∈ t.main ↔ row.memoryId ∈ s.main := by
    constructor
    · intro hin
      refine (hguar.gained _ h.known.mem hin).resolve_right ?_
      rintro ⟨r,hr,hid,-⟩
      exact hs.no_row hhole hr hid
    · intro hin
      refine (hguar.lost _ h.known.mem hin).resolve_right ?_
      rintro ⟨r,hr,hid,-⟩
      exact hs.no_row hhole hr hid
  refine ⟨⟨st,(hholes (c,_,st) rfl).mpr hhole⟩,fun st' hst =>
    h.moves st' ((hholes (c,_,st') rfl).mp hst),fun x hx hc => h.holes x ((hholes x hc).mp hx) hc,
    fun x hx hc => h.owed x ((hguar.owed x (hc.trans_ne hd.symm)).mp hx) hc,lasting_known d s t hs
    h.known hguar,fun hne => (h.suits hne).imp hmain.trans ?_⟩
  rintro ⟨e,he,howed⟩
  refine ⟨e,he,?_⟩
  by_cases hed : e = d
  · subst hed
    refine (hguar.paid _ howed).resolve_right ?_
    rintro ⟨st',hhole'⟩
    exact he (congrArg Prod.fst (hs.hole_unique hhole' hhole rfl))
  · exact (hguar.owed (e,row.memoryId) hed).mpr howed

variable {call : Timestamp × Request} {α β : Type}

/-- An action keeps to what it may do, and an error leaves nothing to complete. -/
abbrev Reviewing (c : ℕ) (call : Timestamp × Request) (F : α → Store → Prop) (m : Act α)
    (s : Store) : Prop :=
  Guarded effect (Allowed c call) Store.Consistent Guarantee c F (Store.Free c) m s

variable {A : Store → Prop}

theorem reviewing_look (hs : s.Consistent) (hA : A s)
    (hstable : Stable Store.Consistent Guarantee c A) :
    Reviewing c call (fun a t => A t ∧ a = f t) (look f) s := by
  refine guarded_map hs (guarded_request A hA hstable (fun t ht hAt _ => ?_) fun t _ _ hfails => ?_)
  · exact ⟨ht,Guarantee.refl c t,hAt,rfl⟩
  · exact (hfails.2 rfl).resolve_left nofun

theorem reviewing_write (hs : s.Consistent) (hA : A s)
    (hstable : Stable Store.Consistent Guarantee c A) (htried : o.isTried = false)
    (hown : ∀ t, t.Consistent → A t → t.Admits o → Own c t o)
    (hF : ∀ t, t.Consistent → A t → t.Admits o → F (effect o t)) :
    Reviewing c call (fun _ => F) (write o) s := by
  refine guarded_map hs (guarded_request A hA hstable (fun t ht hAt hok => ?_) fun t _ _ hfails => ?_)
  · have hadmits := hok.1 rfl
    obtain ⟨hnext,hguar⟩ := keeps_effect ht hadmits (hown t ht hAt hadmits)
    exact ⟨hnext,hguar,hF t ht hAt hadmits⟩
  · exact (hfails.2 rfl).resolve_left fun h => Bool.false_ne_true (htried.symm.trans h)

theorem reviewing_audit (hs : s.Consistent) (hA : A s)
    (hstable : Stable Store.Consistent Guarantee c A) :
    Reviewing c call (fun _ => A) (write .audit) s :=
  reviewing_write hs hA hstable rfl (fun _ _ _ _ => trivial) fun _ _ h _ => h

theorem reviewing_quarantineRecord (id : MemoryId) (content : Quarantined)
    (decision : Option GeneratedCognitionDecision) (hs : s.Consistent) (hfree : s.Free c) :
    Reviewing c call (fun _ => Store.Free c) (quarantineRecord id content decision) s := by
  refine guarded_bind hs (reviewing_write (F := Store.Free c) hs hfree stable_free rfl
    (fun t _ _ _ => ?_) fun _ _ h _ => h)
    fun _ t ht hfree => guarded_bind ht (reviewing_audit ht hfree stable_free) fun _ u _ hfree => hfree
  refine ⟨rfl,fun review receipt h h' => ?_⟩
  obtain ⟨d,-,rfl⟩ := Option.map_eq_some_iff.mp h
  cases h'

theorem reviewing_loadQuarantineRow (id : MemoryId) (hs : s.Consistent) (hfree : s.Free c) :
    Reviewing c call (fun row t => t.Free c ∧ t.Known row ∧ row.memoryId = id)
    (loadQuarantineRow id) s := by
  refine guarded_bind hs (reviewing_look hs hfree stable_free) fun found t ht h => ?_
  obtain ⟨hfree,rfl⟩ := h
  cases hfound : t.rows.find? (·.memoryId == id) with
  | none => exact hfree
  | some row =>
    have hrow := mem_of_find?_eq_some hfound
    have hid := find?_some hfound
    exact ⟨hfree,⟨ht.contents row hrow,ht.receipts row hrow⟩,beq_iff_eq.mp hid⟩

theorem rewriting_of_deleteRow (hs : s.Consistent) (howing : s.Owing c row.memoryId)
    (hknown : s.Known row) (hsuits : s.Suits c row)
    (hadmits : s.Admits (.deleteRow c row.memoryId loaded row.status))
    (hmoves : Moves loaded row.status) :
    (effect (.deleteRow c row.memoryId loaded row.status) s).Rewriting c row := by
  obtain ⟨⟨old,hold,hid,rfl⟩,-⟩ := hadmits
  refine ⟨⟨old.status,mem_holes_deleteRow.mpr (.inr ⟨old,hold,hid,rfl⟩)⟩,fun st hst => ?_,
    fun x hx hc => ?_,howing.1,hknown,hsuits⟩
  · rcases mem_holes_deleteRow.mp hst with h | ⟨r,hr,hid',h⟩
    · exact absurd rfl (howing.2 _ h)
    · obtain rfl : st = r.status := congrArg (·.2.2) h
      rw [hs.row_unique hr hold (hid'.trans hid.symm)]
      exact hmoves
  · rcases mem_holes_deleteRow.mp hx with h | ⟨r,-,-,rfl⟩
    · exact absurd hc (howing.2 x h)
    · rfl

theorem Store.Rewriting.own (h : s.Rewriting c row) (hstatus : row.status ≠ .pending) :
    Own c s (.putRow c row) := ⟨rfl,hstatus,h.known.2,h.known.1,h.hole,h.moves,h.suits⟩

theorem Store.Rewriting.free (h : s.Rewriting c row) : (effect (.putRow c row) s).Free c := by
  refine ⟨fun x hx hc => ?_,fun x hx hc => ?_⟩
  · obtain ⟨hx,hne⟩ := mem_owed_putRow.mp hx
    exact hne (Prod.ext hc (h.owed x hx hc))
  · obtain ⟨hx,hne⟩ := mem_holes_putRow.mp hx
    exact hne ⟨hc,h.holes x hx hc⟩

theorem reviewing_replaceQuarantineRow (hs : s.Consistent)
    (howing : s.Owing c row.memoryId) (hknown : s.Known row) (hB : B s)
    (hstable : Stable Store.Consistent Guarantee c B)
    (hstatus : row.status ≠ .pending) (hmoves : (row.status = .rejected → loaded = .pending) →
    Moves loaded row.status)
    (hsuits : ∀ t, t.Consistent → t.Known row → B t →
    t.Admits (.deleteRow c row.memoryId loaded row.status) →
      t.Suits c row) : Reviewing c call (fun _ => Store.Free c)
      (replaceQuarantineRow c loaded row) s := by
  refine guarded_bind hs (reviewing_write (F := Store.Rewriting c row) hs ⟨howing,hknown,hB⟩
    (stable_owing.and (lasting_known.stable.and hstable)) rfl (fun t _ h _ => ⟨rfl,h.1.2⟩)
    fun t ht h hadmits => ?_) fun _ t ht h => ?_
  · exact rewriting_of_deleteRow ht h.1 h.2.1 (hsuits t ht h.2.1 h.2.2 hadmits) hadmits
      (hmoves hadmits.2)
  · exact reviewing_write ht h stable_rewriting rfl (fun u _ h _ => h.own hstatus) fun u _ h _ =>
      h.free

theorem owing_of_owed {t : Store} {id : MemoryId} (hfree : s.Free c)
    (howed : t.owed = s.owed++[(c,id)]) (hholes : t.holes = s.holes) : t.Owing c id := by
  refine ⟨fun x hx hc => ?_,hholes ▸ hfree.2⟩
  rw [howed] at hx
  rcases mem_append.mp hx with hx | hx
  · exact absurd hc (hfree.1 x hx)
  · exact congrArg Prod.snd (mem_singleton.mp hx)

variable (env : Env)

theorem reviewing_storeRecord (hs : s.Consistent) (hfree : s.Free c)
    (hknown : s.Known row) (hne : row.content ≠ .reconcileProposal) :
    Reviewing c call (fun _ t => t.Owing c row.memoryId ∧ t.Stored row.memoryId)
    (storeRecord env c row) s := by
  have hstable := (stable_free (c := c)).and (@lasting_known row).stable
  refine guarded_bind hs (reviewing_look hs ⟨hfree,hknown⟩ hstable) fun present t ht h => ?_
  obtain ⟨⟨hfree,hknown⟩,rfl⟩ := h
  split
  next hpresent =>
    refine ⟨hfree.owing,hknown.mem,fun r hr hid hpending => ?_⟩
    rw [← hid] at hpresent ⊢
    refine ht.stored r hr hpending ?_ (.inl (by simpa using hpresent))
    rwa [ht.content_eq hr (hid ▸ hknown.1)]
  · refine guarded_bind ht (reviewing_look ht ⟨hfree,hknown⟩ hstable) fun admission u hu h => ?_
    obtain ⟨hnow,-⟩ := h
    cases admission with
    | store =>
      refine reviewing_write hu hnow hstable rfl (fun v _ h _ => ⟨rfl,_,h.2.1,hne⟩) fun v _ h _ => ?_
      exact ⟨owing_of_owed h.1 rfl rfl,h.2.mem,
        fun r _ _ _ => mem_append_right _ (mem_singleton_self _)⟩
    | merge target =>
      exact reviewing_write hu hnow hstable rfl (fun v _ _ h => h.elim) fun v _ _ h => h.elim
    | refuse error => exact hnow.1
    | quarantine error =>
      -- the record is in quarantine already
      refine guarded_bind hu (reviewing_write (F := Store.Free c) hu hnow hstable rfl
        (fun v _ h hadmits => ?_)
        fun v _ h hadmits => ?_) fun _ v hv hfree =>
        guarded_bind hv (reviewing_audit hv hfree stable_free) fun _ w _ h => h
      · exact absurd h.2.mem hadmits.1
      · exact absurd h.2.mem hadmits.1

theorem receipted_approvedReview (h : row.content = .semantic ∧ applied = [row.memoryId] ∨
      row.content = .reconcileProposal ∧ ∀ id ∈ applied, id ∈ s.applied) :
    ({row with generatedReview := approvedReview row.generatedReview applied} :
    QuarantineRow).Receipted s := by
  intro review receipt hreview hreceipt
  obtain ⟨r,-,rfl⟩ := Option.map_eq_some_iff.mp hreview
  cases hreceipt
  exact h

variable (now : Timestamp)

theorem reviewing_promoteRecord (hs : s.Consistent)
    (hfree : s.Free c) (hknown : s.Known row) :
    Reviewing c call (fun review t => t.Owing c row.memoryId ∧
      (row.content ≠ .reconcileProposal → t.Stored row.memoryId) ∧
      t.Known {row with generatedReview := review}) (promoteRecord env c now row) s := by
  unfold promoteRecord
  split
  next notBefore hcontent =>
    have hne : row.content ≠ .reconcileProposal := by simp [hcontent]
    refine guarded_require_bind hfree fun _ => ?_
    refine guarded_bind hs (guarded_lasting lasting_known hs hknown
      (reviewing_storeRecord env hs hfree hknown hne)) fun _ t _ h => ?_
    exact ⟨h.1.1,fun _ => h.1.2,h.2.1,fun _ _ h => nomatch h⟩
  next hcontent =>
    have hne : row.content ≠ .reconcileProposal := by simp [hcontent]
    refine guarded_bind hs (guarded_lasting lasting_known hs hknown
      (reviewing_storeRecord env hs hfree hknown hne)) fun _ t _ h => ?_
    exact ⟨h.1.1,fun _ => h.1.2,h.2.1,receipted_approvedReview (.inl ⟨hcontent,rfl⟩)⟩
  next hcontent =>
    have hstable := (stable_free (c := c)).and (@lasting_known row).stable
    refine guarded_bind hs (reviewing_look hs ⟨hfree,hknown⟩ hstable) fun outcome t ht h => ?_
    obtain ⟨hnow,-⟩ := h
    cases outcome with
    | error error => exact hnow.1
    | ok n =>
      refine guarded_bind ht (reviewing_write (F := fun u => u.Owing c row.memoryId ∧ u.Known {row with
        generatedReview := approvedReview row.generatedReview ((List.range n).map (env.fresh c))}) ht hnow hstable rfl
        (fun u _ h _ => ⟨rfl,hcontent ▸ h.2.1⟩) fun u _ h _ => ?_) fun _ u hu h => ?_
      · refine ⟨owing_of_owed h.1 rfl rfl,h.2.1,
          receipted_approvedReview (.inr ⟨hcontent,fun i hi => ?_⟩)⟩
        exact mem_append_right _ hi
      · refine guarded_bind hu (reviewing_audit hu h (stable_owing.and lasting_known.stable))
          fun _ v _ h => ?_
        exact ⟨h.1,fun hne => absurd hcontent hne,h.2⟩

theorem reviewing_approveQuarantine (id : MemoryId) (approvedBy : AgentId) (hs : s.Consistent)
    (hfree : s.Free c) :
    Reviewing c call (fun _ => Store.Free c) (approveQuarantine env c now id approvedBy) s := by
  refine guarded_bind hs (reviewing_loadQuarantineRow id hs hfree) fun row t ht h => ?_
  obtain ⟨hfree,hknown,-⟩ := h
  refine guarded_require_bind hfree fun hpending => guarded_require_bind hfree fun _ => ?_
  have hpending : row.status = .pending := beq_iff_eq.mp hpending
  refine guarded_bind ht (reviewing_promoteRecord env now ht hfree hknown) fun review u hu h => ?_
  obtain ⟨howing,hstored,hknown⟩ := h
  refine guarded_bind hu (reviewing_replaceQuarantineRow
    (B := fun v => row.content ≠ .reconcileProposal → v.Stored row.memoryId) hu howing hknown
    hstored ?_ nofun
    (fun _ => by rw [hpending]; rfl) fun v _ _ hstored hadmits hne => ?_) fun _ v hv hfree => reviewing_audit hv hfree stable_free
  · exact fun d v w hd hv h hguar hne => lasting_stored.stable d v w hd hv (h hne) hguar
  · obtain ⟨⟨r,hr,hid,hstatus⟩,-⟩ := hadmits
    exact .inl (iff_of_true ((hstored hne).2 r hr hid (hstatus.trans hpending)) rfl)

theorem reviewing_rejectQuarantine (id : MemoryId) (hs : s.Consistent) (hfree : s.Free c) :
    Reviewing c call (fun _ => Store.Free c) (rejectQuarantine c now id) s := by
  refine guarded_bind hs (reviewing_loadQuarantineRow id hs hfree) fun row t ht h => ?_
  obtain ⟨hfree,hknown,-⟩ := h
  refine guarded_bind ht (reviewing_replaceQuarantineRow (B := Store.Free c) ht hfree.owing
    ⟨hknown.1,?_⟩ hfree stable_free
    nofun (fun h => by rw [h rfl]; rfl) fun u hu hknown hfree hadmits hne => ?_) fun _ u hu hfree => reviewing_audit hu hfree stable_free
  · intro review receipt hreview hreceipt
    obtain ⟨r,hr,rfl⟩ := Option.map_eq_some_iff.mp hreview
    exact hknown.2 r receipt hr hreceipt
  · obtain ⟨⟨r,hr,hid,hstatus⟩,hpending⟩ := hadmits
    have hcontent : r.content = row.content := hu.content_eq hr (hid ▸ hknown.1)
    rw [← hcontent] at hne
    rcases hu.agrees r hr hne with h | ⟨d,hd⟩
    · rw [hid,hstatus,hpending rfl] at h
      exact .inl (h.trans (iff_of_false nofun nofun))
    · exact .inr ⟨d,hfree.1 _ hd,hid ▸ hd⟩

theorem reviewing_validateReceipt (ids : List MemoryId) (hs : s.Consistent) (hfree : s.Free c) :
    Reviewing c call (fun _ => Store.Free c) (validateReceipt env ids) s := by
  induction ids generalizing s with
  | nil => exact hfree
  | cons id rest ih =>
    refine guarded_bind hs (reviewing_look hs hfree stable_free) fun _ t ht h => ?_
    refine guarded_require_bind h.1 fun _ => ?_
    refine guarded_bind ht (reviewing_look ht h.1 stable_free) fun _ u hu h => ?_
    exact guarded_require_bind h.1 fun _ => ih hu h.1

/-- A deletion owes at most its entry's row, and deletes that record or applied ones. -/
structure Store.Deleting (c : ℕ) (row : QuarantineRow) (ids : List MemoryId) (s : Store) : Prop where
  owing : s.Owing c row.memoryId
  known : s.Known row
  listed : ∀ id ∈ ids, id = row.memoryId ∨ id ∈ s.applied
  gone : row.content = .reconcileProposal ∨ row.memoryId ∈ ids ∨ s.Gone row.memoryId

theorem stable_deleting : Stable Store.Consistent Guarantee c (Store.Deleting c row ids) :=
  fun d s t hd hs h hguar =>
  ⟨stable_owing d s t hd hs h.owing hguar,lasting_known d s t hs h.known hguar,
    fun i hi => (h.listed i hi).imp_right (hguar.applied i),
    h.gone.imp_right (Or.imp_right fun h => lasting_gone d s t hs h hguar)⟩

theorem Store.Deleting.next {id : MemoryId} (hs : s.Consistent)
    (h : s.Deleting c row (id::rest)) (hadmits : s.Admits (.deleteSemantic c row.memoryId id)) :
    (effect (.deleteSemantic c row.memoryId id) s).Deleting c row rest := by
  obtain ⟨r,hr,hid,happroved⟩ := hadmits
  refine ⟨⟨fun x hx hc => ?_,h.owing.2⟩,h.known,fun i hi => h.listed i (mem_cons_of_mem _ hi),
    h.gone.imp_right fun hgone => ?_⟩
  · rcases mem_append.mp hx with hx | hx
    · exact h.owing.1 x hx hc
    · split at hx
      next hentry => exact (congrArg Prod.snd (mem_singleton.mp hx)).trans hentry
      · cases hx
  · rw [mem_cons] at hgone
    rcases hgone with (heq | hin) | hgone
    · refine .inr ⟨h.known.mem,?_,fun r' hr' hid' => ?_⟩
      · simp [effect,heq]
      · rw [hs.row_unique hr' hr (hid'.trans hid.symm),happroved]
        nofun
    · exact .inl hin
    · exact .inr ⟨hgone.1,fun hin => hgone.2.1 (mem_of_mem_filter hin),hgone.2.2⟩

theorem reviewing_deleteGenerated (ids : List MemoryId) (hs : s.Consistent)
    (h : s.Deleting c row ids) :
    Reviewing c call (fun _ => Store.Deleting c row []) (deleteGenerated c row.memoryId ids) s := by
  induction ids generalizing s with
  | nil => exact h
  | cons id rest ih =>
    refine guarded_bind hs (reviewing_write (F := Store.Deleting c row rest) hs h stable_deleting rfl
      (fun t _ h _ => ⟨rfl,h.listed id mem_cons_self⟩) fun t ht h hadmits => h.next ht hadmits)
      fun _ t ht h => ?_
    have hremove : Guarded effect (Allowed c call) Store.Consistent Guarantee c
      (fun _ => Store.Deleting c row rest)
        (Store.Deleting c row rest) (write (.removeNode id)) t := by
      refine guarded_map ht (guarded_request _ h stable_deleting (fun u hu h _ => ?_) fun u _ h _ => h)
      obtain ⟨hnext,hguar⟩ := @keeps_removeNode c u id hu
      exact ⟨hnext,hguar,{h with}⟩
    exact guarded_attempt_bind ht hremove (fun _ u hu h => ih hu h) fun _ u hu h => ih hu h

theorem reviewing_rollbackQuarantineApproval (id : MemoryId) (rolledBackBy : AgentId)
    (reason : String) (hs : s.Consistent) (hfree : s.Free c) :
    Reviewing c call (fun _ => Store.Free c)
    (rollbackQuarantineApproval env c now id rolledBackBy reason) s := by
  refine guarded_bind hs (reviewing_loadQuarantineRow id hs hfree) fun row t ht h => ?_
  obtain ⟨hfree,hknown,-⟩ := h
  refine guarded_require_bind hfree fun happroved => guarded_expect_bind hfree fun review hreview =>
    guarded_expect_bind hfree fun receipt hreceipt => ?_
  refine guarded_bind ht (guarded_lasting lasting_known ht hknown
    (reviewing_validateReceipt env receipt ht hfree)) fun _ u hu h => ?_
  obtain ⟨hfree,hknown⟩ := h
  have hdeleting : u.Deleting c row receipt := by
    refine ⟨hfree.owing,hknown,fun i hi => ?_,?_⟩
    · rcases hknown.2 review receipt hreview hreceipt with ⟨-,rfl⟩ | ⟨-,happlied⟩
      · exact .inl (mem_singleton.mp hi)
      · exact .inr (happlied i hi)
    · rcases hknown.2 review receipt hreview hreceipt with ⟨-,rfl⟩ | ⟨hproposal,-⟩
      · exact .inr (.inl (mem_singleton_self _))
      · exact .inl hproposal
  refine guarded_bind hu (reviewing_deleteGenerated receipt hu hdeleting) fun _ v hv h => ?_
  refine guarded_bind hv (reviewing_write (F := Store.Deleting c row []) hv h stable_deleting rfl
    (fun _ _ _ _ => trivial) fun w _ h _ => {h with}) fun _ w hw h => ?_
  refine guarded_bind hw (reviewing_replaceQuarantineRow (B := Store.Deleting c row []) hw h.owing
    ⟨h.known.1,?_⟩ h
    stable_deleting nofun (fun _ => by rw [beq_iff_eq.mp happroved]; rfl) fun x hx _ h _ hne => ?_) fun _ x hx hfree => reviewing_audit hx hfree stable_free
  · intro review' receipt' hreview' hreceipt'
    cases hreview'
    exact h.known.2 review receipt' hreview hreceipt'
  · rcases h.gone with hproposal | hin | hgone
    · exact absurd hproposal hne
    · cases hin
    · exact .inl (iff_of_false hgone.2.1 nofun)

abbrev Reviews := Pool (Timestamp × Request) StoreOp Store (Except HirnError Unit)

variable (events : List (Event (Timestamp × Request)))

def reviewed : Reviews :=
  exec (Pool.step effect (serve env)) ⟨Store.empty,[]⟩ events

/-- Every step may be made, and the process stops where no row is being written. -/
def Reviewable : Prop :=
  Admissible (Pool.step effect (serve env)) (fun p e => Meets Allowed p e ∧ StopsWhole p e)
  ⟨Store.empty,[]⟩ events
  deriving Decidable

theorem sound_serve : Sound effect Allowed Store.Consistent Guarantee (fun c _ _ s => s.Free c)
    Store.Free (serve env) := by
  refine ⟨fun _ _ _ => stable_free,fun _ => stable_free,fun c call s hs hfree => ?_⟩
  have hends : ∀ (x : Except HirnError Unit) t, Ends (fun _ => Store.Free c) (Store.Free c) x t →
    t.Free c := by
    intro x t h
    cases x <;> exact h
  obtain ⟨now,request⟩ := call
  cases request with
  | quarantine id content decision =>
    exact Safe.mono hs (reviewing_quarantineRecord id content decision hs hfree) fun x t _ => hends x t
  | approve id approvedBy =>
    exact Safe.mono hs (reviewing_approveQuarantine env now id approvedBy hs hfree) fun x t _ =>
      hends x t
  | reject id => exact Safe.mono hs (reviewing_rejectQuarantine now id hs hfree) fun x t _ => hends x t
  | rollback id rolledBackBy reason =>
    exact Safe.mono hs (reviewing_rollbackQuarantineApproval env now id rolledBackBy reason hs
      hfree) fun x t _ => hends x t

/-- The calls run well, and no stopped one was writing a row again. -/
structure Reviews.Sane (p : Reviews) : Prop where
  running : Running effect Allowed Store.Consistent Guarantee (fun c _ _ s => s.Free c) Store.Free p
  stopped : ∀ c call, p.tasks[c]? = some (call,none) → ∀ x ∈ p.store.holes, x.1 ≠ c

variable {env} {p : Reviews}

theorem Reviews.Sane.step (h : p.Sane) (hok : Meets Allowed p e)
    (hstops : StopsWhole p e) : Reviews.Sane (p.step effect (serve env) e) := by
  refine ⟨running_step (sound_serve env) p e hok h.running,?_⟩
  rw [← Pool.stepWith_id]
  refine stopped_stepWith (Q := fun c s => ∀ x ∈ s.holes, x.1 ≠ c)
    (fun c d s t hd _ hnone hguar x hx hc => ?_) h.running e hok (fun he c x hx => ?_) h.stopped
  · exact hnone x ((hguar.holes x (hc.trans_ne hd.symm)).mp hx) hc
  · change x ∈ p.store.holes at hx
    rw [hstops he] at hx
    cases hx

theorem consistent_empty : Store.empty.Consistent := by
  constructor <;> simp [Store.empty,Store.ids]

theorem sane_reviewed {events : List (Event (Timestamp × Request))} (h : Reviewable env events) :
    (reviewed env events).Sane := by
  refine invariant (I := Reviews.Sane) (fun p e hok hp => hp.step hok.1 hok.2) ⟨?_,by simp⟩ h
  exact running_nil consistent_empty fun c => ⟨nofun,nofun⟩

theorem Reviews.Sane.row_or_hole (h : p.Sane) {id : MemoryId}
    (hid : id ∈ p.store.entered.map Prod.fst) :
    (∃ row ∈ p.store.rows, row.memoryId = id) ∨ ∃ c st call o next, (c,id,st) ∈ p.store.holes ∧
      p.tasks[c]? = some (call,some (.call o next)) := by
  rcases mem_append.mp ((h.running.holds.entered id).mp hid) with hrow | hhole
  · exact .inl (mem_map.mp hrow)
  · obtain ⟨⟨c,i,st⟩,hmem,rfl⟩ := mem_map.mp hhole
    refine .inr ⟨c,st,?_⟩
    have hlt : c < p.tasks.length := by
      by_contra hge
      exact (h.running.fresh c (not_lt.mp hge)).2 _ hmem rfl
    rcases ht : p.tasks[c] with ⟨call,_ | (_ | ⟨o,next⟩)⟩
    · exact absurd rfl (h.stopped c call (List.getElem?_eq_some_iff.mpr ⟨hlt,ht⟩) _ hmem)
    · have hfree := h.running.tasks c call _ (List.getElem?_eq_some_iff.mpr ⟨hlt,ht⟩)
      exact absurd rfl (hfree.2 _ hmem)
    · exact ⟨call,o,next,hmem,List.getElem?_eq_some_iff.mpr ⟨hlt,ht⟩⟩

def Reviews.Quiescent (p : Reviews) : Prop := ∀ t ∈ p.tasks, ∃ reply, t.2 = some (.done reply)

theorem Reviews.Sane.not_owed (h : p.Sane) (hquiescent : p.Quiescent) (x : ℕ × MemoryId) :
    x ∉ p.store.owed := by
  intro hx
  rcases lt_or_ge x.1 p.tasks.length with hlt | hge
  · obtain ⟨reply,hreply⟩ := hquiescent _ (getElem_mem hlt)
    have hfree := h.running.tasks x.1 p.tasks[x.1].1 (.done reply)
      (List.getElem?_eq_some_iff.mpr ⟨hlt,Prod.ext rfl hreply⟩)
    exact hfree.1 x hx rfl
  · exact (h.running.fresh x.1 hge).1 x hx rfl

theorem lasting_closed {id : MemoryId} {promotions : List MemoryId} :
    Lasting Store.Consistent Guarantee fun s =>
    id ∈ s.entered.map Prod.fst ∧ (∀ row ∈ s.rows, row.memoryId = id → row.status ≠ .pending) ∧
      (id ∈ s.promotions → id ∈ promotions) := by
  rintro d s t - ⟨hin,hclosed,hpromoted⟩ hguar
  refine ⟨hguar.mem_entered hin,fun row hrow hid hpending => ?_,fun h => ?_⟩
  · exact hclosed row (hguar.old hin hrow hid hpending) hid hpending
  · rcases hguar.promotions id h with h | ⟨row,hrow,hid,hpending⟩
    · exact hpromoted h
    · exact absurd hpending (hclosed row hrow hid)

variable {first later : List (Event (Timestamp × Request))}

theorem Reviewable.append (h : Reviewable env (first++later)) :
    Reviewable env first ∧ Admissible (Pool.step effect (serve env)) (Meets Allowed)
    (reviewed env first) later :=
  ⟨(admissible_append.mp h).1,(admissible_append.mp h).2.mono fun _ _ h => h.1⟩

theorem not_promoted_later (h : Reviewable env (first++later))
    (hrow : row ∈ (reviewed env first).store.rows)
    (hstatus : row.status = .rejected ∨ row.status = .rolledBack)
    (hpromoted : row.memoryId ∈ (reviewed env (first++later)).store.promotions) :
    row.memoryId ∈ (reviewed env first).store.promotions := by
  obtain ⟨hfirst,hlater⟩ := h.append
  have hsane := sane_reviewed hfirst
  have hclosed : ∀ r ∈ (reviewed env first).store.rows, r.memoryId = row.memoryId →
    r.status ≠ .pending := by
    intro r hr hid
    rw [hsane.running.holds.row_unique hr hrow hid]
    rcases hstatus with hstatus | hstatus <;> simp [hstatus]
  rw [reviewed,exec_append] at hpromoted
  exact (hsane.running.lasting (sound_serve env) lasting_closed
    ⟨hsane.running.holds.row_entered hrow,hclosed,id⟩ hlater).2.2 hpromoted

def plainEnv : Env := ⟨fun _ _ => .store,fun _ _ => .ok 1,fun _ _ => false,
    fun c i => 1000 * (c + 1) + i⟩

def alone (c n : ℕ) (call : Timestamp × Request) : List (Event (Timestamp × Request)) :=
  .start call::List.replicate n (.step c true)

/-- Of two records one is approved, while the other is rejected, and rolled back. -/
def interleavedReviews : List (Event (Timestamp × Request)) :=
  List.flatten [alone 0 2 (10,.quarantine 7 .semantic (some .pendingReview)),
    alone 1 2 (11,.quarantine 8 (.episodic none) none),[.start (20,.approve 7 "bob"),
    .start (21,.reject 8)],(List.replicate 4 [.step 2 true,.step 3 true]).flatten,
    List.replicate 3 (.step 2 true),alone 4 9 (30,.rollback 7 "bob" "mistaken")]

end Hirn.Quarantine
