import Hirn.OrderedTable
import Hirn.RaftStateMachine

/-! The two log stores, one in memory and one in a database, and what they report as the state
of their log. Both look at the entries that are present only, so a log that has been purged to
its end is reported as if it had never been written. -/
namespace Hirn.Raft
open Runs List OrderedTable
variable {s : DevMemLogStore}

structure LogState where
  (lastPurgedLogId lastLogId : Option LogId)

structure DevMemLogStore where
  log : OrderedTable ℕ Entry
  lastPurged : Option LogId

inductive LogOp
  | append (entries : List Entry)
  | truncate (logId : LogId)
  | purge (logId : LogId)

namespace DevMemLogStore

def empty : DevMemLogStore := ⟨.empty,none⟩

variable (s)

def step : LogOp → DevMemLogStore
  | .append entries => {s with log := entries.foldl (fun t e => t.insert e.logId.index e) s.log}
  | .truncate logId => {s with log := s.log.keep fun i => decide (i < logId.index)}
  | .purge logId => ⟨s.log.keep fun i => decide (logId.index < i),some logId⟩

def entries : List Entry := s.log.values
def getLogState : LogState := ⟨s.lastPurged,s.entries.getLast?.map (·.logId)⟩
end DevMemLogStore

/-- The encoding of the database's rows, which reads back what it wrote. -/
structure LogFormats (β : Type) where
  encodeEntry : Entry → β
  decodeEntry : β → Option Entry
  encodeLogId : LogId → β
  decodeLogId : β → Option LogId
  decode_encodeEntry : ∀ e, decodeEntry (encodeEntry e) = some e
  decode_encodeLogId : ∀ id, decodeLogId (encodeLogId id) = some id

structure DurableLogStore (β : Type) where
  log : OrderedTable ℕ β
  lastPurged : Option β

variable {β : Type}

namespace DurableLogStore
variable (f : LogFormats β)

def empty : DurableLogStore β := ⟨.empty,none⟩

/-- Indices are collected in one pass over the table and removed in a second. -/
def removeWhere (t : OrderedTable ℕ β) (p : ℕ → Bool) : OrderedTable ℕ β :=
  (t.keys.filter p).foldl OrderedTable.remove t

variable (s : DurableLogStore β)

/-- A call with its transaction, which changes nothing if not committed. -/
def step : LogOp × Bool → DurableLogStore β
  | (_,false) => s
  | (.append entries,true) =>
    {s with log := entries.foldl (fun t e => t.insert e.logId.index (f.encodeEntry e)) s.log}
  | (.truncate logId,true) => {s with log := removeWhere s.log fun i => decide (logId.index ≤ i)}
  | (.purge logId,true) =>
    ⟨removeWhere s.log fun i => decide (i ≤ logId.index),some (f.encodeLogId logId)⟩

def tryGetLogEntries : Option (List Entry) := s.log.values.mapM f.decodeEntry

def getLogState : Option LogState := do
  let last ← match s.log.last? with
    | some row => (f.decodeEntry row.2).map fun e => some e.logId
    | none => some none
  let lastPurged ← match s.lastPurged with
    | some bytes => (f.decodeLogId bytes).map some
    | none => some none
  return ⟨lastPurged,last⟩
end DurableLogStore
variable {f : LogFormats β}

def encodeStore (f : LogFormats β) (s : DevMemLogStore) : DurableLogStore β :=
  ⟨s.log.map f.encodeEntry,s.lastPurged.map f.encodeLogId⟩

open DevMemLogStore

theorem removeWhere_map {t : OrderedTable ℕ Entry} {p q : ℕ → Bool} (h : ∀ i, p i = !q i) :
    DurableLogStore.removeWhere (t.map f.encodeEntry) p = (t.keep q).map f.encodeEntry := by
  have hp : p = fun i => !q i := funext h
  rw [DurableLogStore.removeWhere,hp,foldl_remove_keys,map_keep]

theorem append_map (entries : List Entry) (t : OrderedTable ℕ Entry) :
    entries.foldl (fun t e => t.insert e.logId.index (f.encodeEntry e)) (t.map f.encodeEntry) =
      (entries.foldl (fun t e => t.insert e.logId.index e) t).map f.encodeEntry := by
  induction entries generalizing t with
  | nil => rfl
  | cons e es ih => rw [foldl_cons,foldl_cons,← ih,map_insert]

theorem durable_step (s : DevMemLogStore) (op : LogOp) :
    (encodeStore f s).step f (op,true) = encodeStore f (s.step op) := by
  cases op with
  | append entries => simp only [DurableLogStore.step,encodeStore,append_map,step]
  | truncate logId =>
    have hnot : ∀ i, decide (logId.index ≤ i) = !decide (i < logId.index) := fun i => by
      simp [← decide_not]
    simp [DurableLogStore.step,encodeStore,step,removeWhere_map hnot]
  | purge logId =>
    have hnot : ∀ i, decide (i ≤ logId.index) = !decide (logId.index < i) := fun i => by
      simp [← decide_not]
    simp [DurableLogStore.step,encodeStore,step,removeWhere_map hnot]

def committed (ops : List (LogOp × Bool)) : List LogOp := (ops.filter (·.2)).map Prod.fst

theorem durable_exec (ops : List (LogOp × Bool)) (s : DevMemLogStore) :
    exec (DurableLogStore.step f) (encodeStore f s) ops =
    encodeStore f (exec step s (committed ops)) := by
  induction ops generalizing s with
  | nil => rfl
  | cons op ops ih =>
    obtain ⟨op,commits⟩ := op
    cases commits with
    | false => exact ih s
    | true =>
      rw [exec_cons,durable_step,ih]
      rfl

theorem entries_encodeStore (s : DevMemLogStore) :
    (encodeStore f s).tryGetLogEntries f = some s.entries := by
  have hvalues : (encodeStore f s).log.values = s.entries.map f.encodeEntry := by
    simp [encodeStore,OrderedTable.values,OrderedTable.map,entries]
  rw [DurableLogStore.tryGetLogEntries,hvalues]
  induction s.entries with
  | nil => rfl
  | cons e es ih => simp [f.decode_encodeEntry,ih]

theorem DevMemLogStore.getLast_entries (s : DevMemLogStore) :
    s.entries.getLast? = s.log.last?.map Prod.snd := getLast?_map

theorem getLogState_encodeStore (s : DevMemLogStore) :
    (encodeStore f s).getLogState f = some s.getLogState := by
  have hlog : (encodeStore f s).log.last? = s.log.last?.map fun r => (r.1,f.encodeEntry r.2) :=
    last_map f.encodeEntry
  rw [DurableLogStore.getLogState,hlog,getLogState,getLast_entries]
  cases s.log.last? <;> cases hp : s.lastPurged <;>
    simp [encodeStore,hp,f.decode_encodeEntry,f.decode_encodeLogId]

def Follows : Option LogId → List Entry → Prop
  | _,[] => True
  | prev,e::es => (∀ p ∈ prev, e.logId.index = p.index+1) ∧ Follows (some e.logId) es

section
variable (s)

def DevMemLogStore.tip : Option LogId := (s.entries.getLast?.map (·.logId)).or s.lastPurged

/-- Entries are numbered on from the end of the log, and purging does not go back. -/
def Contiguous : LogOp → Prop
  | .append entries => Follows s.tip entries
  | .truncate _ => True
  | .purge logId => LogId.AtMost s.lastPurged (some logId)

/-- Next to a purged id, the last entry that a call writes or leaves is there and is no older. -/
def KeepsNewer : LogOp → Prop
  | .append entries => ∀ p ∈ s.lastPurged, ∀ e ∈ entries.getLast?, p ≤ e.logId
  | .truncate logId => ∀ p ∈ s.lastPurged,
    ∃ e ∈ (s.entries.filter (·.logId.index < logId.index)).getLast?, p ≤ e.logId
  | .purge logId => ∃ e ∈ (s.entries.filter (logId.index < ·.logId.index)).getLast?, logId ≤ e.logId

def DevMemLogStore.Keyed : Prop := ∀ row ∈ s.log.rows, row.1 = row.2.logId.index
end

/-- The last id is the last entry's or else the purged one, and not below that. -/
def LogState.InOrder (st : LogState) (entries : List Entry) : Prop :=
  st.lastLogId = (entries.getLast?.map (·.logId)).or st.lastPurgedLogId ∧
  LogId.AtMost st.lastPurgedLogId st.lastLogId

theorem inOrder_iff (s : DevMemLogStore) : s.getLogState.InOrder s.entries ↔
    ∀ p ∈ s.lastPurged, ∃ e ∈ s.entries.getLast?, p ≤ e.logId := by
  rw [LogState.InOrder,getLogState]
  cases hp : s.lastPurged <;> cases he : s.entries.getLast? <;> simp [LogId.AtMost]

/-- With contiguous entries the last one appended comes to stand last. -/
theorem DevMemLogStore.Keyed.append {s : DevMemLogStore} {es : List Entry} (h : s.Keyed)
    (hes : Follows s.tip es) : (s.step (.append es)).Keyed ∧
      (s.step (.append es)).entries.getLast? = es.getLast?.or s.entries.getLast? := by
  induction es generalizing s with
  | nil => exact ⟨h,rfl⟩
  | cons e es ih =>
    have hbelow : ∀ row ∈ s.log.rows, row.1 < e.logId.index := by
      intro row hrow
      obtain ⟨last,hlast⟩ : ∃ last, s.log.last? = some last :=
        Option.ne_none_iff_exists'.mp fun hnone => by
          rw [getLast?_eq_none_iff.mp hnone] at hrow
          cases hrow
      have htip : s.tip = some last.2.logId := by simp [tip,getLast_entries,hlast]
      have hle := le_last hrow hlast
      have hkey := h last (mem_of_last hlast)
      have hsucc := hes.1 last.2.logId htip
      omega
    let s' : DevMemLogStore := {s with log := s.log.insert e.logId.index e}
    have hkeyed : s'.Keyed := by
      intro row hrow
      rcases mem_insert.mp hrow with rfl | ⟨hrow,-⟩
      · rfl
      · exact h row hrow
    have hlast : s'.entries.getLast? = some e := by
      have hinsert : s'.log.last? = some (e.logId.index,e) := last_insert hbelow
      rw [getLast_entries,hinsert]
      rfl
    have htip : s'.tip = some e.logId := by rw [tip,hlast]; rfl
    obtain ⟨hall,hend⟩ := ih hkeyed (htip ▸ hes.2)
    refine ⟨hall,hend.trans ?_⟩
    rw [hlast,getLast?_cons,Option.or_some,Option.some_or]

theorem DevMemLogStore.Keyed.entries_keep {s : DevMemLogStore} (h : s.Keyed) (p : ℕ → Bool) :
    (s.log.keep p).values = s.entries.filter fun e => p e.logId.index := by
  rw [entries,OrderedTable.values,OrderedTable.values,filter_map]
  exact congrArg _ (filter_congr fun row hrow => congrArg p (h row hrow))

theorem DevMemLogStore.Keyed.step {s : DevMemLogStore} {op : LogOp} (h : s.Keyed)
    (hop : Contiguous s op) : (s.step op).Keyed := by
  cases op with
  | append es => exact (h.append hop).1
  | truncate id => exact fun row hrow => h row (mem_keep.mp hrow).1
  | purge id => exact fun row hrow => h row (mem_keep.mp hrow).1

/-- A call keeps the report in order exactly if it keeps a newer entry. -/
theorem inOrder_step {s : DevMemLogStore} {op : LogOp} (hkeyed : s.Keyed) (hop : Contiguous s op)
    (h : s.getLogState.InOrder s.entries) :
    (s.step op).getLogState.InOrder (s.step op).entries ↔ KeepsNewer s op := by
  rw [inOrder_iff] at h ⊢
  cases op with
  | append es =>
    rw [(hkeyed.append hop).2]
    cases hes : es.getLast? with
    | none => simpa [KeepsNewer,hes,DevMemLogStore.step] using h
    | some e => simp [KeepsNewer,hes,DevMemLogStore.step]
  | truncate id =>
    have hentries : (s.step (.truncate id)).entries = _ := hkeyed.entries_keep _
    rw [hentries]
    rfl
  | purge id =>
    have hentries : (s.step (.purge id)).entries = _ := hkeyed.entries_keep _
    rw [hentries]
    simp [KeepsNewer,DevMemLogStore.step]

/-- Both stores hold and report the same, and along a contiguous run the report is in order all the
time exactly if each call keeps an entry that is no older than what is purged. -/
theorem log_state_in_order_iff {β : Type} (f : LogFormats β) (ops : List (LogOp × Bool))
    (hok : Admissible step Contiguous .empty (committed ops)) :
    (let d := exec (DurableLogStore.step f) .empty ops
     let s := exec step .empty (committed ops)
     d.tryGetLogEntries f = some s.entries ∧ d.getLogState f = some s.getLogState) ∧
    ((∀ done, done <+: committed ops →
        (exec step .empty done).getLogState.InOrder (exec step .empty done).entries) ↔
      Admissible step KeepsNewer .empty (committed ops)) := by
  have hd : exec (DurableLogStore.step f) .empty ops =
    encodeStore f (exec step .empty (committed ops)) :=
    durable_exec ops .empty
  refine ⟨⟨hd ▸ entries_encodeStore _,hd ▸ getLogState_encodeStore _⟩,?_⟩
  let P : DevMemLogStore → Prop := fun s => s.getLogState.InOrder s.entries
  have hempty : DevMemLogStore.Keyed .empty ∧ P .empty := ⟨nofun,(inOrder_iff _).mpr nofun⟩
  have hsame : Equivalence fun s s' : DevMemLogStore => (P s ↔ P s') :=
    ⟨fun _ => Iff.rfl,Iff.symm,Iff.trans⟩
  have hgood : ∀ s op, True → s.Keyed ∧ P s → Contiguous s op → ¬¬KeepsNewer s op →
      (P s ↔ P (s.step op)) ∧ (s.step op).Keyed ∧ P (s.step op) := by
    intro s op _ h hop hkeeps
    have hnext := (inOrder_step h.1 hop h.2).mpr (not_not.mp hkeeps)
    exact ⟨iff_of_true h.2 hnext,h.1.step hop,hnext⟩
  have hbad : ∀ s op, True → s.Keyed ∧ P s → Contiguous s op → ¬KeepsNewer s op →
    ¬(P s ↔ P (s.step op)) :=
    fun s op _ h hop hnot hiff => hnot ((inOrder_step h.1 hop h.2).mp (hiff.mp h.2))
  have hrun := unchanged_iff hsame hgood hbad (fun _ _ => trivial) hempty hok
  simpa [hempty.2,P] using hrun

def plainLogFormats : LogFormats (Entry ⊕ LogId) where
  encodeEntry := .inl
  decodeEntry := Sum.getLeft?
  encodeLogId := .inr
  decodeLogId := Sum.getRight?
  decode_encodeEntry _ := rfl
  decode_encodeLogId _ := rfl

def purgedToEnd : List (LogOp × Bool) :=
  [(.append [⟨⟨1,1,1⟩,.blank⟩,⟨⟨1,1,2⟩,.blank⟩],true),(.purge ⟨1,1,2⟩,true)]

/-- The log ends at 2, and is reported without an end. -/
theorem purged_log_reports_nothing : Admissible DevMemLogStore.step Contiguous .empty
    (committed purgedToEnd) ∧
    (exec (DurableLogStore.step plainLogFormats) .empty purgedToEnd).getLogState plainLogFormats =
      some ⟨some ⟨1,1,2⟩,none⟩ ∧
    (exec DevMemLogStore.step .empty (committed purgedToEnd)).getLogState = ⟨some ⟨1,1,2⟩,none⟩ ∧
    ¬LogState.InOrder ⟨some ⟨1,1,2⟩,none⟩ [] := by
  refine ⟨⟨⟨nofun,⟨by simp,trivial⟩⟩,nofun,trivial⟩,rfl,rfl,?_⟩
  rintro ⟨h,-⟩
  cases h

def purgedToFirst : List (LogOp × Bool) :=
  [(.append [⟨⟨1,1,1⟩,.blank⟩,⟨⟨1,1,2⟩,.blank⟩],true),(.purge ⟨1,1,1⟩,true),(.truncate ⟨1,1,1⟩,false)]

/-- With an entry left the report is in order. -/
theorem log_state_in_order_kept :
    (exec DevMemLogStore.step .empty (committed purgedToFirst)).getLogState.InOrder
    [⟨⟨1,1,2⟩,.blank⟩] := by
  refine (log_state_in_order_iff plainLogFormats purgedToFirst ⟨⟨nofun,⟨by simp,trivial⟩⟩,nofun,
    trivial⟩).2.mpr ⟨nofun,⟨⟨⟨1,1,2⟩,.blank⟩,rfl,by decide⟩,trivial⟩ _ (prefix_refl _)
end Hirn.Raft
