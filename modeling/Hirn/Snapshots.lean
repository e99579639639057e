import Mathlib

/-! Snapshots of a database. A tag names a version of each dataset; a rollback restores one dataset after the
other, and then writes an audit entry for each. -/
namespace Hirn.Snapshots
open List

inductive Error
  | storage
  | tagNotFound (tag dataset : String)
  deriving DecidableEq

/-- A dataset, with the number of a version as its place, and its cached heads. -/
structure Dataset (α κ η : Type) where
  name : String
  older : List α
  current : α
  tags : List (String × ℕ)
  heads : κ → Option η

structure RolledBackDataset where
  dataset : String
  (fromVersion toVersion : ℕ)
  deriving DecidableEq

/-- An audit entry, by the one action that is written here. -/
structure DatasetRollback extends RolledBackDataset where
  actor : Option String
  tag : String

structure Db (α κ η : Type) where
  datasets : List (Dataset α κ η)
  audit : List DatasetRollback

/-- Which calls to storage fail; a dataset that does not open is not listed. -/
structure Faults where
  listDatasets : Bool
  (unopened listTags version rollbackTo appendAudit : String → Bool)

def rollbackExcludedDatasets : List String := ["events","_audit"]

section
variable {α κ η : Type} (faults : Faults) (tag : String) (d : Dataset α κ η)

def Dataset.versions : List α := d.older++[d.current]

/-- `create_snapshot`, where no call fails. -/
def createSnapshot (db : Db α κ η) : Db α κ η :=
  {db with datasets := db.datasets.map fun d => {d with tags := (tag,d.older.length)::d.tags}}

def Dataset.rollback : Except Error (Dataset α κ η × RolledBackDataset) :=
  if faults.listTags d.name then .error .storage
  else match d.tags.find? (·.1 == tag) with
  | none => .error (.tagNotFound tag d.name)
  | some target =>
    if faults.version d.name || faults.rollbackTo d.name then .error .storage
    else match d.versions[target.2]? with
    | none => .error .storage
    | some contents =>
      .ok ({d with older := d.versions,current := contents},⟨d.name,d.older.length,target.2⟩)

def Dataset.isListed : Bool := !faults.unopened d.name && d.name ∉ rollbackExcludedDatasets

def rollback : List (Dataset α κ η) → List (Dataset α κ η) × Except Error (List RolledBackDataset)
  | [] => ([],.ok [])
  | d::ds =>
    if d.isListed faults then
      match d.rollback faults tag with
      | .error error => (d::ds,.error error)
      | .ok (d,rolledBack) => ((d::(rollback ds).1),(rollback ds).2.map (rolledBack::·))
    else (d::(rollback ds).1,(rollback ds).2)

def rollbackToSnapshot (actor : Option String) (db : Db α κ η) :
    Db α κ η × Except Error (List RolledBackDataset) :=
  if faults.listDatasets then (db,.error .storage)
  else match rollback faults tag db.datasets with
  | (datasets,.error error) => ({db with datasets},.error error)
  | (datasets,.ok report) =>
    let written := report.takeWhile fun r => !faults.appendAudit r.dataset
    (⟨datasets,db.audit++written.map (⟨·,actor,tag⟩)⟩,
      if written.length = report.length then .ok report else .error .storage)
end
section
variable {α κ η : Type} (newest : α → κ → Option η) (faults : Faults) (tag : String)
    (d : Dataset α κ η)

def Dataset.tagged : Option α :=
  (d.tags.find? (·.1 == tag)).bind fun target => d.versions[target.2]?

def Dataset.Serves (contents : α) : Prop :=
  ∀ key, (d.heads key).or (newest contents key) = newest contents key

def Dataset.isRestorable : Bool := d.name ∉ rollbackExcludedDatasets && (d.tagged tag).isSome

structure Atomic (db db' : Db α κ η) (result : Except Error (List RolledBackDataset)) : Prop where
  restored : ∀ report, result = .ok report → Forall₂ (fun d d' => d.isRestorable tag = true →
    d.tagged tag = some d'.current) db.datasets db'.datasets ∧ ∃ entries, db'.audit = db.audit++
    entries ∧
      entries.map (·.dataset) = (db.datasets.filter (·.isRestorable tag)).map (·.name)
  unchanged : ∀ error, result = .error error →
    db'.datasets.map (·.current) = db.datasets.map (·.current)
  trails : Forall₂ (fun d d' => d.name ∈ rollbackExcludedDatasets → d' = d) db.datasets db'.datasets
  heads : ∀ d ∈ db'.datasets, d.Serves newest d.current

def Dataset.isBlocked (d : Dataset α κ η) : Bool :=
  faults.listTags d.name || faults.version d.name || faults.rollbackTo d.name || (d.tagged tag).isNone

/-- A rollback that must fail gets to no dataset that it would change; another finds the tag everywhere,
and no cached head outside the tagged contents. -/
def Db.Prepared (db : Db α κ η) : Prop :=
  if faults.listDatasets = true ∨ ∃ d ∈ db.datasets, d.isListed faults = true ∧
      (d.isBlocked faults tag = true ∨ faults.appendAudit d.name = true) then
    (faults.listDatasets = false → ∀ d ∈ db.datasets.takeWhile fun d =>
    !(d.isListed faults && d.isBlocked faults tag),
      d.isListed faults = true → d.tagged tag = some d.current) ∧ ∀ d ∈ db.datasets,
      d.Serves newest d.current
  else ∀ d ∈ db.datasets, (d.isRestorable tag = true → d.isListed faults = true) ∧
    d.Serves newest (if d.isListed faults then (d.tagged tag).getD d.current else d.current)
end
section
variable {α κ η : Type} (newest : α → κ → Option η) (faults : Faults) (tag : String)

def Dataset.restored (d : Dataset α κ η) : Dataset α κ η :=
  if d.isListed faults then {d with older := d.versions,current := (d.tagged tag).getD d.current} else d

theorem Dataset.rollback_cases {d : Dataset α κ η} (hlisted : d.isListed faults) :
    (d.isBlocked faults tag ∧ ∃ error, d.rollback faults tag = .error error) ∨
    (d.isBlocked faults tag = false ∧ ∃ rolledBack, rolledBack.dataset = d.name ∧
      d.rollback faults tag = .ok (d.restored faults tag,rolledBack)) := by
  unfold rollback isBlocked restored tagged
  rw [if_pos hlisted]
  cases hlist : faults.listTags d.name with
  | true => exact .inl ⟨rfl,_,rfl⟩
  | false =>
    cases htag : d.tags.find? (·.1 == tag) with
    | none => exact .inl ⟨by simp,_,rfl⟩
    | some target =>
      cases hfault : faults.version d.name || faults.rollbackTo d.name with
      | true => exact .inl ⟨by simp [hfault],_,rfl⟩
      | false =>
        cases hversion : d.versions[target.2]? with
        | none => exact .inl ⟨by simp [hversion],.storage,by simp [hversion]⟩
        | some contents =>
          exact .inr ⟨by simp [hfault,hversion],⟨d.name,d.older.length,target.2⟩,rfl,by simp [hversion]⟩

theorem rollback_cases (ds : List (Dataset α κ η)) :
    ((∃ d ∈ ds, d.isListed faults ∧ d.isBlocked faults tag) ∧ ∃ error, rollback faults tag ds =
      ((ds.takeWhile fun d => !(d.isListed faults && d.isBlocked faults tag)).map
      (·.restored faults tag) ++
        ds.dropWhile fun d => !(d.isListed faults && d.isBlocked faults tag),.error error)) ∨
    ((∀ d ∈ ds, d.isListed faults → d.isBlocked faults tag = false) ∧ ∃ report,
      rollback faults tag ds = (ds.map (·.restored faults tag),.ok report) ∧
        report.map (·.dataset) = (ds.filter (·.isListed faults)).map (·.name)) := by
  induction ds with
  | nil => exact .inr ⟨by simp,[],rfl,rfl⟩
  | cons d ds ih =>
    rw [rollback]
    by_cases hlisted : d.isListed faults = true
    · rcases d.rollback_cases faults tag hlisted with ⟨hblocked,error,heq⟩ | ⟨hblocked,rolledBack,
        hname,heq⟩
      · exact .inl ⟨⟨d,by simp,hlisted,hblocked⟩,error,by simp [heq,hlisted,hblocked]⟩
      · rcases ih with ⟨⟨x,hx,hx'⟩,error,herror⟩ | ⟨hall,report,hreport,hnames⟩
        · exact .inl ⟨⟨x,by simp [hx],hx'⟩,error,by simp [heq,herror,hlisted,hblocked,Except.map]⟩
        · exact .inr ⟨by simpa [hblocked] using hall,rolledBack::report,
            by simp [heq,hreport,hlisted,Except.map],by simp [hlisted,hname,hnames]⟩
    · have hsame : d.restored faults tag = d := if_neg hlisted
      rcases ih with ⟨⟨x,hx,hx'⟩,error,herror⟩ | ⟨hall,report,hreport,hnames⟩
      · exact .inl ⟨⟨x,by simp [hx],hx'⟩,error,by simp [herror,hlisted,hsame]⟩
      · exact .inr ⟨by simpa [hlisted] using hall,report,by simp [hreport,hlisted,hsame],by simpa [hlisted] using hnames⟩

variable {d : Dataset α κ η} {db db' : Db α κ η}

theorem Dataset.tagged_of_open (h : d.isBlocked faults tag = false) :
    ∃ contents, d.tagged tag = some contents :=
  Option.isSome_iff_exists.mp (by simpa [isBlocked] using (Bool.or_eq_false_iff.mp h).2)

theorem Dataset.serves_restored : (d.restored faults tag).Serves newest contents ↔
    d.Serves newest contents := by
  unfold restored
  split <;> exact Iff.rfl

theorem Dataset.restored_trail (h : d.name ∈ rollbackExcludedDatasets) :
    d.restored faults tag = d := by
  simp [restored,isListed,h]

/-- Behind a failed rollback the datasets that it came to must be as before. -/
theorem atomic_error_iff (ds rest : List (Dataset α κ η)) (hbefore : db.datasets = ds++rest)
    (hafter : db'.datasets = ds.map (·.restored faults tag)++rest)
    (hopen : ∀ d ∈ ds, d.isListed faults → d.isBlocked faults tag = false) :
    Atomic newest tag db db' (.error error) ↔
    (∀ d ∈ ds, d.isListed faults → d.tagged tag = some d.current) ∧
      ∀ d ∈ db.datasets, d.Serves newest d.current := by
  have hsame : (∀ d ∈ ds, d.isListed faults → d.tagged tag = some d.current) ↔
      ∀ d ∈ ds, (d.restored faults tag).current = d.current := by
    refine forall₂_congr fun d hd => ?_
    unfold Dataset.restored
    split
    next hlisted =>
      obtain ⟨contents,htagged⟩ := d.tagged_of_open faults tag (hopen d hd hlisted)
      simp [hlisted,htagged]
    next hlisted => simp [hlisted]
  have hcurrent : db'.datasets.map (·.current) = db.datasets.map (·.current) ↔
      ∀ d ∈ ds, (d.restored faults tag).current = d.current := by
    rw [hbefore,hafter,map_append,map_append,append_cancel_right_eq,map_map]
    exact map_inj_left
  have hheads : (∀ d ∈ ds, (d.restored faults tag).current = d.current) →
    ((∀ d ∈ db'.datasets, d.Serves newest d.current) ↔
      ∀ d ∈ db.datasets, d.Serves newest d.current) := by
    intro h
    rw [hbefore,hafter,forall_mem_append,forall_mem_append,forall_mem_map]
    refine and_congr_left fun _ => forall₂_congr fun d hd => ?_
    rw [h d hd,Dataset.serves_restored]
  rw [hsame]
  constructor
  · intro h
    have hkept := hcurrent.mp (h.unchanged _ rfl)
    exact ⟨hkept,(hheads hkept).mp h.heads⟩
  · rintro ⟨hkept,hserves⟩
    refine ⟨nofun,fun _ _ => hcurrent.mpr hkept,?_,(hheads hkept).mpr hserves⟩
    rw [hbefore,hafter]
    exact rel_append (forall₂_map_right_iff.mpr (forall₂_same.mpr fun d _ =>
      d.restored_trail faults tag)) (forall₂_same.mpr fun _ _ _ => rfl)

theorem atomic_ok_iff (hopen : ∀ d ∈ db.datasets, d.isListed faults → d.isBlocked faults tag = false)
    (hreport : report.map (·.dataset) = (db.datasets.filter (·.isListed faults)).map (·.name)) :
    Atomic newest tag db ⟨db.datasets.map (·.restored faults tag),db.audit++
    report.map (⟨·,actor,tag⟩)⟩ (.ok report) ↔
      ∀ d ∈ db.datasets, (d.isRestorable tag → d.isListed faults) ∧
        d.Serves newest (if d.isListed faults then (d.tagged tag).getD d.current else d.current) := by
  have hcurrent : ∀ d : Dataset α κ η, (d.restored faults tag).current =
      if d.isListed faults then (d.tagged tag).getD d.current else d.current := by
    intro d
    unfold Dataset.restored
    split <;> rfl
  have htagged : ∀ d ∈ db.datasets, d.isListed faults → ∃ contents, d.tagged tag = some contents :=
    fun d hd hlisted => d.tagged_of_open faults tag (hopen d hd hlisted)
  have hrestorable : ∀ d ∈ db.datasets, d.isListed faults → d.isRestorable tag := by
    intro d hd hlisted
    obtain ⟨contents,htagged⟩ := htagged d hd hlisted
    exact Bool.and_eq_true_iff.mpr ⟨(Bool.and_eq_true_iff.mp hlisted).2,by rw [htagged]; rfl⟩
  have hentries : (report.map fun r => (⟨r,actor,tag⟩ : DatasetRollback)).map (·.dataset) =
      (db.datasets.filter (·.isListed faults)).map (·.name) := by
    rw [map_map]
    exact hreport
  constructor
  · intro h d hd
    refine ⟨fun hd' => ?_,?_⟩
    · obtain ⟨-,entries,haudit,hnames⟩ := h.restored _ rfl
      rw [← append_cancel_left haudit,hentries] at hnames
      -- as many datasets are listed as have the tag
      have hlength := congrArg length hnames
      have hlisted : db.datasets.filter (·.isListed faults) =
          (db.datasets.filter (·.isRestorable tag)).filter (·.isListed faults) := by
        rw [filter_filter]
        exact filter_congr fun d hd => by grind
      rw [length_map,length_map,hlisted] at hlength
      exact length_filter_eq_length_iff.mp hlength d (mem_filter.mpr ⟨hd,hd'⟩)
    · rw [← hcurrent,← Dataset.serves_restored newest faults tag]
      exact h.heads _ (mem_map_of_mem hd)
  · intro h
    refine ⟨fun _ _ => ⟨?_,_,rfl,?_⟩,nofun,?_,fun d hd => ?_⟩
    · refine forall₂_map_right_iff.mpr (forall₂_same.mpr fun d hd hd' => ?_)
      obtain ⟨contents,htagged⟩ := htagged d hd ((h d hd).1 hd')
      rw [hcurrent,if_pos ((h d hd).1 hd'),htagged,Option.getD_some]
    · rw [hentries]
      exact congrArg (map _) (filter_congr fun d hd =>
        Bool.eq_iff_iff.mpr ⟨hrestorable d hd,(h d hd).1⟩)
    · exact forall₂_map_right_iff.mpr (forall₂_same.mpr fun d _ => d.restored_trail faults tag)
    · obtain ⟨x,hx,rfl⟩ := mem_map.mp hd
      rw [hcurrent,Dataset.serves_restored]
      exact (h x hx).2

/-- A rollback is atomic exactly if the database is prepared for it. -/
theorem rollback_atomic_iff {α κ η : Type} (newest : α → κ → Option η) (faults : Faults)
    (tag : String) (actor : Option String) (db : Db α κ η) :
    Atomic newest tag db (rollbackToSnapshot faults tag actor db).1
        (rollbackToSnapshot faults tag actor db).2 ↔
      db.Prepared newest faults tag := by
  unfold rollbackToSnapshot Db.Prepared
  cases hlist : faults.listDatasets with
  | true =>
    rw [if_pos rfl,atomic_error_iff newest faults tag [] db.datasets rfl rfl (by simp)]
    simp
  | false =>
    rw [if_neg Bool.false_ne_true,forall_prop_of_true rfl]
    rcases rollback_cases faults tag db.datasets with
      ⟨⟨d,hd,hlisted,hblocked⟩,error,heq⟩ | ⟨hopen,report,heq,hreport⟩
    · rw [heq,if_pos (.inr ⟨d,hd,hlisted,.inl hblocked⟩)]
      refine atomic_error_iff newest faults tag _ _ takeWhile_append_dropWhile.symm rfl
        fun d hd hlisted => ?_
      simpa [hlisted] using mem_takeWhile_imp hd
    · have htake : db.datasets.takeWhile (fun d => !(d.isListed faults && d.isBlocked faults tag)) =
        db.datasets :=
        takeWhile_eq_self_iff.mpr fun d hd => by
          cases hlisted : d.isListed faults <;> simp [hopen d hd,hlisted]
      have hnames : (∀ r ∈ report, faults.appendAudit r.dataset = false) ↔
          ∀ d ∈ db.datasets, d.isListed faults = true → faults.appendAudit d.name = false := by
        rw [← forall_mem_map (P := fun name => faults.appendAudit name = false),hreport,forall_mem_map]
        simp
      rw [heq,htake]
      dsimp only
      by_cases hwritten : ∀ r ∈ report, faults.appendAudit r.dataset = false
      · rw [takeWhile_eq_self_iff.mpr fun r hr => by simp [hwritten r hr],if_pos rfl,if_neg]
        · exact atomic_ok_iff newest faults tag hopen hreport
        · rintro (h | ⟨d,hd,hlisted,hblocked | hfault⟩)
          · cases h
          · simp [hopen d hd hlisted] at hblocked
          · simp [hnames.mp hwritten d hd hlisted] at hfault
      · rw [if_neg,if_pos]
        · exact atomic_error_iff newest faults tag db.datasets [] (append_nil _).symm
            (append_nil _).symm hopen
        · by_contra h
          refine hwritten (hnames.mpr fun d hd hlisted => Bool.eq_false_iff.mpr fun hfault =>
            h (.inr ?_))
          exact ⟨d,hd,hlisted,.inr hfault⟩
        · intro hlength
          refine hwritten fun r hr => ?_
          have := takeWhile_eq_self_iff.mp (( takeWhile_prefix _).eq_of_length hlength) r hr
          simpa using this
end

/-- Records, of which the last is the head, with one of them in the cache. -/
def plain (name : String) (cached : Option ℕ) : Dataset (List ℕ) Unit ℕ :=
  ⟨name,[],[1],[],fun _ => cached⟩

def grown : Db (List ℕ) Unit ℕ where
  datasets := (createSnapshot "v1" ⟨[plain "episodic" none],[]⟩).datasets.map (fun d =>
    {d with older := d.versions,current := [1,2],heads := fun _ => some 2})++[plain "svo" none]
  audit := []

def noFaults : Faults := ⟨false,fun _ => false,fun _ => false,fun _ => false,fun _ => false,
    fun _ => false⟩

/-- A dataset outside the snapshot fails the rollback, behind one already restored. -/
theorem rollback_stops_halfway : (rollbackToSnapshot noFaults "v1" none grown).2 =
    .error (.tagNotFound "v1" "svo") ∧
    (rollbackToSnapshot noFaults "v1" none grown).1.datasets.map (·.current) = [[1],[1]] ∧
    grown.datasets.map (·.current) = [[1,2],[1]] := by
  decide
end Hirn.Snapshots
