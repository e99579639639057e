import Hirn.Records

/-! Listing the episodes that satisfy a filter. A part of the filter is given to the scan and so
decides which revisions the heads are taken from; the rest is applied to the heads. -/
namespace Hirn.Engine
open Chains List

inductive EventType
  | conversation | toolCall | observation | experiment | error | decision
  deriving DecidableEq

/-- A stored episode with what listings read beside the record. -/
structure Episode extends EpisodicRecord where
  eventType : EventType
  (validUntil expiresAt : Option Timestamp)
  deriving DecidableEq

instance : Revision Episode where
  key := (·.id)
  chain := (·.logicalMemoryId)
  revision := (·.revisionId)
  version := (·.version)
  recordedAt := (·.createdAt)

abbrev Instant := ℤ

variable {filter : EpisodicFilter} {now : Instant} {r : Episode}

namespace Listing

def nanos : ℤ := 1000000

def fromMillis (t : Timestamp) : Instant := t*nanos
def timestampMs (t : Instant) : Timestamp := t / nanos

structure EpisodicFilter where
  eventType : Option EventType
  (after before : Option Instant)
  minImportance : Option ℚ
  entityName : Option String
  ns : Option Namespace
  includeArchived : Bool
  (limit offset : Option ℕ)
  validAt : Option Instant

def usizeMax : ℕ := 2^64-1

/-- The rows of the dataset: each revision has its own ids. -/
structure Episodes where
  rows : List Episode
  ids : (rows.map (·.id)).Nodup
  revisions : (rows.map (·.revisionId)).Nodup
  addressable : rows.length ≤ usizeMax

def isExpired (r : Episode) (now : Instant) : Bool := r.expiresAt.any fun t => fromMillis t ≤ now

def isValidAt (r : Episode) (t : Instant) : Bool :=
  fromMillis r.timestamp ≤ t && r.validUntil.all fun u => fromMillis u > t

def buildEpisodicScanFilter (filter : EpisodicFilter) (r : Episode) : Bool :=
  (filter.after.all fun t => r.timestamp > timestampMs t) &&
  (filter.before.all fun t => r.timestamp < timestampMs t) &&
  (filter.ns.all fun ns => r.ns == ns) &&
  (filter.eventType.all fun e => r.eventType == e) &&
  (filter.minImportance.all fun m => r.body.importance ≥ m) &&
  filter.validAt.all fun t => r.timestamp ≤ timestampMs t && r.validUntil.all fun u =>
  u > timestampMs t

def episodeMatchesFilterAt (r : Episode) (filter : EpisodicFilter) (now : Instant) : Bool :=
  if !filter.includeArchived && r.archived then false
  else if isExpired r now then false
  else if filter.eventType.any fun e => r.eventType != e then false
  else if filter.after.any fun t => fromMillis r.timestamp ≤ t then false
  else if filter.before.any fun t => fromMillis r.timestamp ≥ t then false
  else if filter.minImportance.any fun m => r.body.importance < m then false
  else if filter.entityName.any fun name => !r.body.entities.any (·.name == name) then false
  else if filter.ns.any fun ns => r.ns != ns then false
  else true

def listOrder (left right : Episode) : Prop :=
  left.timestamp < right.timestamp ∨ left.timestamp = right.timestamp ∧ left.id ≤ right.id
  deriving Decidable

/-- The order in which a map gives its values. -/
structure MapOrder where
  values : List Episode → List Episode
  perm : ∀ l, (values l).Perm l

def heads (rows : List Episode) : List Episode :=
  (rows.map (·.logicalMemoryId)).dedup.filterMap (Store.collapse rows)

def listEpisodes (map : MapOrder) (now : Instant) (filter : EpisodicFilter) (stored : Episodes) :
    List Episode :=
  let requestedLimit := filter.limit.getD usizeMax
  if requestedLimit = 0 then []
  else
    let scanned := (stored.rows.filter (buildEpisodicScanFilter filter)).insertionSort listOrder
    let results := ((map.values (heads scanned)).filter fun r => episodeMatchesFilterAt r filter
      now).insertionSort
      listOrder
    let offset := filter.offset.getD 0
    if offset ≥ results.length then []
    else
      let stop := min (min (offset+requestedLimit) usizeMax) results.length
      (results.take stop).drop offset

def satisfies (r : Episode) (filter : EpisodicFilter) (now : Instant) : Bool :=
  episodeMatchesFilterAt r filter now && filter.validAt.all (isValidAt r)

/-- A page of the newest revisions that satisfy the filter, by timestamp and id. -/
def Reports (now : Instant) (filter : EpisodicFilter) (rows page : List Episode) : Prop :=
  ∃ all : List Episode, all.Pairwise (fun left right => toLex (left.timestamp,left.id) <
  toLex (right.timestamp,right.id)) ∧
    (∀ r, r ∈ all ↔ Newest rows r ∧ satisfies r filter now = true) ∧
    page = (match filter.limit with
      | some limit => (all.drop (filter.offset.getD 0)).take limit
      | none => all.drop (filter.offset.getD 0))

/-- The scan selects the revision and none of the newer ones of its chain. -/
def Leads (filter : EpisodicFilter) (rows : List Episode) (r : Episode) : Prop :=
  (r ∈ rows ∧ buildEpisodicScanFilter filter r = true) ∧
    ∀ x ∈ rows, x.logicalMemoryId = r.logicalMemoryId → newer x r = true →
    buildEpisodicScanFilter filter x = false

variable {t : Instant}

theorem timestampMs_lt : timestampMs t < m ↔ t < fromMillis m :=
  Int.ediv_lt_iff_lt_mul (by decide)

theorem le_timestampMs : m ≤ timestampMs t ↔ fromMillis m ≤ t :=
  Int.le_ediv_iff_mul_le (by decide)

theorem lt_timestampMs (h : fromMillis m < t) : m < timestampMs t ↔ m ≠ timestampMs t :=
  ⟨ne_of_lt,lt_of_le_of_ne (le_timestampMs.mpr h.le)⟩

theorem episodeMatchesFilterAt_iff : episodeMatchesFilterAt r filter now ↔
    (filter.includeArchived ∨ r.archived = false) ∧ isExpired r now = false ∧
    (∀ e, filter.eventType = some e → r.eventType = e) ∧
    (∀ t, filter.after = some t → t < fromMillis r.timestamp) ∧
    (∀ t, filter.before = some t → fromMillis r.timestamp < t) ∧
    (∀ m, filter.minImportance = some m → m ≤ r.body.importance) ∧
    (∀ name, filter.entityName = some name → ∃ e ∈ r.body.entities, e.name = name) ∧
    ∀ ns, filter.ns = some ns → r.ns = ns := by
  simp [episodeMatchesFilterAt,Option.any_eq_false]

theorem buildEpisodicScanFilter_iff : buildEpisodicScanFilter filter r ↔
    (∀ t, filter.after = some t → t < fromMillis r.timestamp) ∧
    (∀ t, filter.before = some t → r.timestamp < timestampMs t) ∧
    (∀ ns, filter.ns = some ns → r.ns = ns) ∧ (∀ e, filter.eventType = some e → r.eventType = e) ∧
    (∀ m, filter.minImportance = some m → m ≤ r.body.importance) ∧ ∀ t, filter.validAt = some t →
    isValidAt r t := by
  simp [buildEpisodicScanFilter,isValidAt,timestampMs_lt,le_timestampMs,Option.all_eq_true,and_assoc]

theorem satisfies_iff : satisfies r filter now ↔
    episodeMatchesFilterAt r filter now ∧ ∀ t, filter.validAt = some t → isValidAt r t := by
  simp [satisfies,Option.all_eq_true]

theorem satisfies_of_scanned (hscan : buildEpisodicScanFilter filter r)
    (hr : episodeMatchesFilterAt r filter now) : satisfies r filter now := by
  obtain ⟨-,-,-,-,-,hvalid⟩ := buildEpisodicScanFilter_iff.mp hscan
  exact satisfies_iff.mpr ⟨hr,hvalid⟩

theorem scanned_iff_of_satisfies (hr : satisfies r filter now) :
    buildEpisodicScanFilter filter r ↔ ∀ t, filter.before = some t → r.timestamp ≠ timestampMs t := by
  obtain ⟨hmatches,hvalid⟩ := satisfies_iff.mp hr
  obtain ⟨-,-,htype,hafter,hbefore,himportance,-,hns⟩ := episodeMatchesFilterAt_iff.mp hmatches
  rw [buildEpisodicScanFilter_iff]
  constructor
  · rintro ⟨-,h,-⟩ t ht
    exact ne_of_lt (h t ht)
  · intro h
    exact ⟨hafter,fun t ht => (lt_timestampMs (hbefore t ht)).mpr (h t ht),hns,htype,himportance,
      hvalid⟩

instance : Std.Total listOrder :=
  ⟨fun a b => by
    rcases lt_trichotomy a.timestamp b.timestamp with h | h | h
    · exact .inl (.inl h)
    · exact (le_total a.id b.id).imp (fun hid => .inr ⟨h,hid⟩) fun hid => .inr ⟨h.symm,hid⟩
    · exact .inr (.inl h)⟩

instance : IsTrans Episode listOrder :=
  ⟨fun a b c hab hbc => by
    rcases hab with hab | ⟨hab,hab'⟩
    · rcases hbc with hbc | ⟨hbc,-⟩
      · exact .inl (hab.trans hbc)
      · exact .inl (hbc ▸ hab)
    · rcases hbc with hbc | ⟨hbc,hbc'⟩
      · exact .inl (hab ▸ hbc)
      · exact .inr ⟨hab.trans hbc,hab'.trans hbc'⟩⟩

theorem listOrder_iff {a b : Episode} : listOrder a b ↔
    toLex (a.timestamp,a.id) ≤ toLex (b.timestamp,b.id) := by
  rw [Prod.Lex.toLex_le_toLex,listOrder]

variable {rows : List Episode}

theorem eq_of_nodup_map {κ : Type} {f : Episode → κ} (h : (rows.map f).Nodup) :
    ∀ r ∈ rows, ∀ x ∈ rows, f r = f x → r = x := fun _ hr _ hx => inj_on_of_nodup_map h hr hx

theorem mem_heads (h : ∀ r ∈ rows, ∀ x ∈ rows, r.revisionId = x.revisionId → r = x) :
    r ∈ heads rows ↔ Newest rows r := by
  simp only [heads,mem_filterMap,mem_dedup,mem_map]
  constructor
  · rintro ⟨c,-,hc⟩
    exact (newest_of_collapse hc).1
  · intro hr
    exact ⟨r.logicalMemoryId,⟨r,hr.1,rfl⟩,(collapse_eq_some h).mpr ⟨hr,rfl⟩⟩

theorem nodup_heads (rows : List Episode) : (heads rows).Nodup := by
  refine List.Nodup.filterMap ?_ (nodup_dedup _)
  intro c c' r hc hc'
  exact (newest_of_collapse hc).2.symm.trans (newest_of_collapse hc').2

variable {map : MapOrder}

def results (map : MapOrder) (now : Instant) (filter : EpisodicFilter) (rows : List Episode) :
    List Episode :=
  ((map.values (heads ((rows.filter (buildEpisodicScanFilter filter)).insertionSort
  listOrder))).filter fun r =>
    episodeMatchesFilterAt r filter now).insertionSort listOrder

theorem newest_scanned : Newest ((rows.filter (buildEpisodicScanFilter filter)).insertionSort
    listOrder) r ↔
      Leads filter rows r := by
  simp only [Newest,mem_insertionSort,mem_filter]
  refine and_congr_right fun _ => ?_
  constructor
  · intro h x hx hc hnewer
    by_contra hscan
    exact absurd hnewer (Bool.eq_false_iff.mp (h x ⟨hx,Bool.eq_true_of_not_eq_false hscan⟩ hc))
  · rintro h x ⟨hx,hscan⟩ hc
    rw [Bool.eq_false_iff]
    intro hnewer
    exact absurd hscan (Bool.eq_false_iff.mp (h x hx hc hnewer))

theorem mem_results (h : ∀ r ∈ rows, ∀ x ∈ rows, r.revisionId = x.revisionId → r = x) :
    r ∈ results map now filter rows ↔ Leads filter rows r ∧ episodeMatchesFilterAt r filter now := by
  rw [results,mem_insertionSort,mem_filter,(map.perm _).mem_iff,mem_heads,newest_scanned]
  intro r hr x hx
  rw [mem_insertionSort,mem_filter] at hr hx
  exact h r hr.1 x hx.1

theorem results_subset (stored : Episodes) : results map now filter stored.rows ⊆ stored.rows := by
  intro r hr
  exact ((mem_results (eq_of_nodup_map stored.revisions)).mp hr).1.1.1

variable (map) (now : Instant) (filter : EpisodicFilter)

theorem nodup_results (rows : List Episode) : (results map now filter rows).Nodup := by
  rw [results,(perm_insertionSort _ _).nodup_iff]
  exact (((map.perm _).nodup_iff).mpr (nodup_heads _)).filter _

variable (stored : Episodes)

theorem pairwise_results : (results map now filter stored.rows).Pairwise fun left right =>
      toLex (left.timestamp,left.id) < toLex (right.timestamp,right.id) := by
  have hsorted : (results map now filter stored.rows).Pairwise listOrder := pairwise_insertionSort _ _
  refine List.Pairwise.imp_of_mem ?_ (pairwise_and_iff.mpr
    ⟨hsorted,nodup_results map now filter stored.rows⟩)
  rintro a b ha hb ⟨hab,hne⟩
  refine lt_of_le_of_ne (listOrder_iff.mp hab) ?_
  intro heq
  refine hne (eq_of_nodup_map stored.ids a (results_subset stored ha) b (results_subset stored hb) ?_)
  exact congrArg Prod.snd (toLex.injective heq)

theorem length_results : (results map now filter stored.rows).length ≤ usizeMax := by
  have hsub := subperm_of_subset (nodup_results map now filter stored.rows) (results_subset stored)
  exact hsub.length_le.trans stored.addressable

/-- The cut takes the page that offset and limit ask for. -/
theorem listEpisodes_eq :
    listEpisodes map now filter stored =
      match filter.limit with
      | some limit => ((results map now filter stored.rows).drop (filter.offset.getD 0)).take limit
      | none => (results map now filter stored.rows).drop (filter.offset.getD 0) := by
  have hlen := length_results map now filter stored
  change (if filter.limit.getD usizeMax = 0 then []
    else if filter.offset.getD 0 ≥ (results map now filter stored.rows).length then []
    else ((results map now filter stored.rows).take
      (min (min (filter.offset.getD 0 + filter.limit.getD usizeMax)
      usizeMax) (results map now filter stored.rows).length)).drop (filter.offset.getD 0)) = _
  generalize results map now filter stored.rows = all at *
  generalize filter.offset.getD 0 = offset
  have hcut : ∀ limit, (all.take (min (min (offset+limit) usizeMax) all.length)).drop offset =
      (all.drop offset).take limit := by
    intro limit
    rw [drop_take,take_eq_take_iff,length_drop]
    omega
  cases filter.limit with
  | some limit =>
    simp only [Option.getD_some,hcut]
    split_ifs with hzero hoffset
    · rw [hzero,take_zero]
    · rw [drop_eq_nil_of_le hoffset,take_nil]
    · rfl
  | none =>
    simp only [Option.getD_none,hcut]
    rw [if_neg (by decide)]
    split_ifs with hoffset
    · rw [drop_eq_nil_of_le hoffset]
    · exact take_of_length_le (by rw [length_drop]; omega)

def launch (id version : ℕ) (importance : ℚ) : Episode :=
  ⟨⟨id,0,id,version,.create,none,none,0,0,0,none,
  ⟨"launch","launch",[],none,importance,0,[],.episodicEvent⟩,0,0,
    .withOrigin .directObservation "agent","shared",false⟩,.observation,none,none⟩

def faded : Episodes := ⟨[launch 0 1 1,launch 1 2 0],by decide,by decide,by decide⟩
def important : EpisodicFilter := ⟨none,none,none,some 1,none,none,false,none,none,none⟩

end Listing
end Hirn.Engine
