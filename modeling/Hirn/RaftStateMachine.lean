import Hirn.RaftLeases

/-! The state machine that keeps its data in memory and in a database. Applying entries changes
memory first and the database once at the end, a snapshot is installed in two transactions, and
each transaction may fail. -/
namespace Hirn.Raft
open Runs

instance : LinearOrder LogId :=
  LinearOrder.lift' (fun id => toLex (id.term,toLex (id.leader,id.index))) fun a b h => by
    cases a
    cases b
    simpa using h

def LogId.AtMost (a b : Option LogId) : Prop := ∀ x ∈ a, ∃ y ∈ b, x ≤ y
theorem LogId.AtMost.refl (a : Option LogId) : AtMost a a := fun x hx => ⟨x,hx,le_rfl⟩

theorem LogId.AtMost.trans (hab : AtMost a b) (hbc : AtMost b c) : AtMost a c := by
  intro x hx
  obtain ⟨y,hy,hxy⟩ := hab x hx
  obtain ⟨z,hz,hyz⟩ := hbc y hy
  exact ⟨z,hz,hxy.trans hyz⟩

inductive EntryPayload
  | blank
  | normal (req : RaftRequest)
  | membership (mem : Membership)

structure Entry where
  logId : LogId
  payload : EntryPayload

def applyEntry (data : StateMachineData) (e : Entry) : StateMachineData × RaftResponse :=
  let data := {data with lastAppliedLog := some e.logId}
  match e.payload with
  | .blank => (data,.ok)
  | .normal req => applyRequest data req
  | .membership mem => ({data with lastMembership := ⟨some e.logId,mem⟩},.ok)

def applyEntries (data : StateMachineData) : List Entry → StateMachineData × List RaftResponse
  | [] => (data,[])
  | e::es =>
    let first := applyEntry data e
    let rest := applyEntries first.1 es
    (rest.1,first.2::rest.2)

structure SnapshotMeta where
  lastLogId : Option LogId
  lastMembership : StoredMembership
  snapshotId : String

/-- The serializers and how a leader id prints. What is written is read back. -/
structure Formats (β : Type) where
  encodeState : StateMachineData → β
  decodeState : β → Option StateMachineData
  encodeMeta : SnapshotMeta → β
  decodeMeta : β → Option SnapshotMeta
  toJson : StateMachineData → β
  fromJson : β → Option StateMachineData
  showLeader : ℕ → NodeId → String
  decode_encodeState : ∀ data, decodeState (encodeState data) = some data
  decode_encodeMeta : ∀ info, decodeMeta (encodeMeta info) = some info

variable {β : Type} (f : Formats β)

/-- The rows that the machine owns in the database. -/
structure Database (β : Type) where
  (state snapshotMeta snapshotData : Option β)

structure StoredSnapshot (β : Type) where
  info : SnapshotMeta
  data : β

structure HirnStateMachine (β : Type) where
  data : StateMachineData
  snapshotIdx : ℕ
  currentSnapshot : Option (StoredSnapshot β)
  db : Database β

def loadState (db : Database β) : Option StateMachineData :=
  match db.state with
  | some bytes => f.decodeState bytes
  | none => some default

def loadSnapshot (db : Database β) : Option (Option (StoredSnapshot β)) :=
  match db.snapshotMeta,db.snapshotData with
  | some info,some data => (f.decodeMeta info).map fun info => some ⟨info,data⟩
  | _,_ => some none

namespace HirnStateMachine

/-- Opening reads both tables, and fails where a row cannot be decoded. -/
def «open» (db : Database β) : Option (HirnStateMachine β) := do
  let data ← loadState f db
  let snapshot ← loadSnapshot f db
  return ⟨data,0,snapshot,db⟩

variable (m : HirnStateMachine β)

def persistState (data : StateMachineData) : HirnStateMachine β :=
  {m with db := {m.db with state := some (f.encodeState data)}}

def persistSnapshot (info : SnapshotMeta) (payload : β) : HirnStateMachine β :=
  {m with db := {m.db with snapshotMeta := some (f.encodeMeta info),snapshotData := some payload}}

/-- `commits` says whether the transaction goes through. -/
def apply (entries : List Entry) (commits : Bool) : HirnStateMachine β × Option (List RaftResponse) :=
  let result := applyEntries m.data entries
  let m := {m with data := result.1}
  if commits then (m.persistState f result.1,some result.2) else (m,none)

def snapshotId : String :=
  match m.data.lastAppliedLog with
  | some last => f.showLeader last.term last.leader++"-"++toString last.index++"-"++
      toString (m.snapshotIdx+1)
  | none => "--"++toString (m.snapshotIdx+1)

def buildSnapshot (commits : Bool) : HirnStateMachine β × Option (StoredSnapshot β) :=
  let snapshot : StoredSnapshot β :=
    ⟨⟨m.data.lastAppliedLog,m.data.lastMembership,m.snapshotId f⟩,f.toJson m.data⟩
  let m := {m with snapshotIdx := m.snapshotIdx+1}
  if commits then
    ({m.persistSnapshot f snapshot.info snapshot.data with currentSnapshot := some snapshot},
    some snapshot)
  else (m,none)

/-- The state is committed before the snapshot, and memory follows both. -/
def installSnapshot (info : SnapshotMeta) (payload : β)
    (stateCommits snapshotCommits : Bool) : HirnStateMachine β × Option Unit :=
  match f.fromJson payload with
  | none => (m,none)
  | some new =>
    if stateCommits then
      let m := m.persistState f new
      if snapshotCommits then
        ({m.persistSnapshot f info payload with data := new,currentSnapshot := some ⟨info,payload⟩},
        some ())
      else (m,none)
    else (m,none)
end HirnStateMachine

inductive Operation (β : Type)
  | apply (entries : List Entry) (commits : Bool)
  | buildSnapshot (commits : Bool)
  | installSnapshot (info : SnapshotMeta) (payload : β) (stateCommits snapshotCommits : Bool)
  | reopen

variable (m : HirnStateMachine β)

def HirnStateMachine.step : Operation β → HirnStateMachine β
  | .apply entries commits => (m.apply f entries commits).1
  | .buildSnapshot commits => (m.buildSnapshot f commits).1
  | .installSnapshot info payload stateCommits snapshotCommits =>
    (m.installSnapshot f info payload stateCommits snapshotCommits).1
  | .reopen => (HirnStateMachine.open f m.db).getD m

def HirnStateMachine.fresh : HirnStateMachine β := ⟨default,0,none,⟨none,none,none⟩⟩

/-- Memory is what the database would bring, and its snapshot is not ahead. -/
def InStep : Prop :=
  ∃ reloaded, HirnStateMachine.open f m.db = some reloaded ∧ reloaded.data = m.data ∧
    ∀ snapshot ∈ reloaded.currentSnapshot, LogId.AtMost snapshot.info.lastLogId m.data.lastAppliedLog

/-- A batch is committed unless it is empty and not behind; an installed state is committed with its
snapshot, which claims no more. -/
def CommitsWhole : Operation β → Prop
  | .apply entries commits => (entries = [] ∨ commits = true) ∧
      ∀ e ∈ entries, LogId.AtMost m.data.lastAppliedLog (some e.logId)
  | .installSnapshot info payload stateCommits snapshotCommits => ∀ new, f.fromJson payload =
      some new →
      stateCommits = true → snapshotCommits = true ∧ LogId.AtMost info.lastLogId new.lastAppliedLog
  | _ => True

open HirnStateMachine
variable (data : StateMachineData)

theorem applyRequest_lastAppliedLog (req : RaftRequest) :
    (applyRequest data req).1.lastAppliedLog = data.lastAppliedLog := by
  cases req with
  | acquireLease =>
    rw [applyRequest]
    split <;> rfl
  | releaseLease =>
    rw [applyRequest]
    split
    · split <;> rfl
    · rfl
  | renewLease =>
    rw [applyRequest]
    split
    · split <;> rfl
    · rfl
  | _ => rfl

theorem applyEntry_lastAppliedLog (e : Entry) :
    (applyEntry data e).1.lastAppliedLog = some e.logId := by
  rw [applyEntry]
  cases e.payload with
  | normal req => exact applyRequest_lastAppliedLog _ req
  | _ => rfl

theorem applyEntries_lastAppliedLog (entries : List Entry) :
    (applyEntries data entries).1.lastAppliedLog = data.lastAppliedLog ∨
      ∃ e ∈ entries, (applyEntries data entries).1.lastAppliedLog = some e.logId := by
  induction entries generalizing data with
  | nil => exact .inl rfl
  | cons e es ih =>
    rw [applyEntries]
    rcases ih (applyEntry data e).1 with h | ⟨e',he',h⟩
    · exact .inr ⟨e,by simp,by rw [h,applyEntry_lastAppliedLog]⟩
    · exact .inr ⟨e',by simp [he'],h⟩

variable {f} {m : HirnStateMachine β}

theorem open_eq_some {db : Database β} :
    HirnStateMachine.open f db = some m ↔ loadState f db = some m.data ∧
      loadSnapshot f db = some m.currentSnapshot ∧ m.snapshotIdx = 0 ∧ m.db = db := by
  rw [HirnStateMachine.open]
  simp only [Option.bind_eq_bind,Option.bind_eq_some_iff,Option.pure_def,Option.some.injEq]
  constructor
  · rintro ⟨data,hdata,snapshot,hsnapshot,rfl⟩
    exact ⟨hdata,hsnapshot,rfl,rfl⟩
  · rintro ⟨hdata,hsnapshot,hidx,rfl⟩
    refine ⟨m.data,hdata,m.currentSnapshot,hsnapshot,?_⟩
    rw [← hidx]

theorem inStep_iff : InStep f m ↔ loadState f m.db = some m.data ∧ ∃ snapshot, loadSnapshot f m.db =
      some snapshot ∧ ∀ s ∈ snapshot, LogId.AtMost s.info.lastLogId m.data.lastAppliedLog := by
  constructor
  · rintro ⟨reloaded,hopen,hdata,hsnapshot⟩
    obtain ⟨hstate,hsnap,-,-⟩ := open_eq_some.mp hopen
    exact ⟨hdata ▸ hstate,reloaded.currentSnapshot,hsnap,hsnapshot⟩
  · rintro ⟨hstate,snapshot,hsnap,hle⟩
    exact ⟨⟨m.data,0,snapshot,m.db⟩,open_eq_some.mpr ⟨hstate,hsnap,rfl,rfl⟩,rfl,hle⟩

theorem inStep_apply (h : InStep f m)
    (hok : CommitsWhole f m (.apply entries commits)) : InStep f (m.apply f entries commits).1 := by
  obtain ⟨hstate,snapshot,hsnap,hle⟩ := inStep_iff.mp h
  obtain ⟨hcommits,hids⟩ := hok
  have hlater : LogId.AtMost m.data.lastAppliedLog (applyEntries m.data entries).1.lastAppliedLog := by
    rcases applyEntries_lastAppliedLog m.data entries with h | ⟨e,he,h⟩
    · rw [h]
      exact .refl _
    · rw [h]
      exact hids e he
  cases commits with
  | true =>
    refine inStep_iff.mpr ⟨f.decode_encodeState _,snapshot,hsnap,fun s hs => ?_⟩
    exact (hle s hs).trans hlater
  | false =>
    have hempty : entries = [] := hcommits.resolve_right (by simp)
    subst hempty
    exact h

theorem inStep_buildSnapshot (commits : Bool) (h : InStep f m) :
    InStep f (m.buildSnapshot f commits).1 := by
  obtain ⟨hstate,snapshot,hsnap,hle⟩ := inStep_iff.mp h
  cases commits with
  | true =>
    refine inStep_iff.mpr ⟨hstate,_,by simp [buildSnapshot,persistSnapshot,
      loadSnapshot,f.decode_encodeMeta]; rfl,?_⟩
    rintro s ⟨rfl⟩
    exact .refl _
  | false => exact inStep_iff.mpr ⟨hstate,snapshot,hsnap,hle⟩

theorem inStep_installSnapshot (h : InStep f m)
    (hok : CommitsWhole f m (.installSnapshot info payload stateCommits snapshotCommits)) :
    InStep f (m.installSnapshot f info payload stateCommits snapshotCommits).1 := by
  rw [installSnapshot]
  split
  case h_1 => exact h
  case h_2 new hnew =>
    cases stateCommits with
    | false => exact h
    | true =>
      obtain ⟨rfl,hle⟩ := hok new hnew rfl
      refine inStep_iff.mpr ⟨f.decode_encodeState _,some ⟨info,payload⟩,?_,?_⟩
      · simp [persistSnapshot,loadSnapshot,f.decode_encodeMeta]
      · rintro s ⟨rfl⟩
        exact hle

theorem inStep_step (m : HirnStateMachine β) (op : Operation β) (hok : CommitsWhole f m op)
    (h : InStep f m) : InStep f (m.step f op) := by
  cases op with
  | apply entries commits => exact inStep_apply h hok
  | buildSnapshot commits => exact inStep_buildSnapshot commits h
  | installSnapshot info payload stateCommits snapshotCommits => exact inStep_installSnapshot h hok
  | reopen =>
    obtain ⟨reloaded,hopen,hdata,hsnapshot⟩ := h
    have hdb := (open_eq_some.mp hopen).2.2.2
    rw [HirnStateMachine.step,hopen,Option.getD_some]
    exact ⟨reloaded,by rw [hdb,hopen],rfl,by rw [hdata]; exact hsnapshot⟩

/-- Where operations commit whole, memory and database are in step behind each. -/
theorem memory_in_step_with_disk {β : Type} (f : Formats β) (ops : List (Operation β))
    (hok : Admissible (step f) (CommitsWhole f) .fresh ops) :
    InStep f (exec (step f) .fresh ops) := by
  refine invariant inStep_step ?_ hok
  exact inStep_iff.mpr ⟨rfl,none,rfl,by simp⟩

/-- Bytes that are what they encode. -/
def plainFormats : Formats (StateMachineData ⊕ SnapshotMeta) where
  encodeState := .inl
  decodeState := Sum.getLeft?
  encodeMeta := .inr
  decodeMeta := Sum.getRight?
  toJson := .inl
  fromJson := Sum.getLeft?
  showLeader term node := "T"++toString term++"-N"++toString node
  decode_encodeState _ := rfl
  decode_encodeMeta _ := rfl

def registration : Entry := ⟨⟨1,1,1⟩,.normal (.registerNode 7 "https://node-7")⟩

def newerState : StateMachineData := {(default : StateMachineData) with lastAppliedLog := some ⟨1,1,2⟩}

def runOf (ops : List (Operation (StateMachineData ⊕ SnapshotMeta))) :
    HirnStateMachine (StateMachineData ⊕ SnapshotMeta) :=
  exec (step plainFormats) .fresh ops

/-- What a node answers from, its last id and the last id of its snapshot. -/
def answers (m : HirnStateMachine (StateMachineData ⊕ SnapshotMeta)) :
    Option String × Option LogId × Option (Option LogId) :=
  (m.data.nodes 7,m.data.lastAppliedLog,m.currentSnapshot.map (·.info.lastLogId))

/-- A batch whose commit fails is lost on reopening, its snapshot is reloaded beside the older state,
and a half installed snapshot is the other way round. -/
theorem failed_commit_splits :
    answers (runOf [.apply [registration] false]) = (some "https://node-7",some ⟨1,1,1⟩,none) ∧
    answers (runOf [.apply [registration] false,.reopen]) = (none,none,none) ∧
    answers (runOf [.apply [registration] false,.buildSnapshot true,.reopen]) =
    (none,none,some (some ⟨1,1,1⟩)) ∧
    answers (runOf [.installSnapshot ⟨some ⟨1,1,2⟩,default,"s"⟩ (.inl newerState) true false]) =
    (none,none,none) ∧
    answers (runOf [.installSnapshot ⟨some ⟨1,1,2⟩,default,"s"⟩ (.inl newerState) true false,
    .reopen]) =
      (none,some ⟨1,1,2⟩,none) ∧ ¬InStep plainFormats (runOf [.apply [registration] false]) := by
  refine ⟨rfl,rfl,rfl,rfl,rfl,?_⟩
  rintro ⟨reloaded,hopen,hdata,-⟩
  have hstate : some (default : StateMachineData) = some reloaded.data := (open_eq_some.mp hopen).1
  rw [hdata] at hstate
  exact absurd (congrArg StateMachineData.lastAppliedLog (Option.some.inj hstate)) nofun

/-- Harmless failures: an empty batch, a built snapshot, a state not installed. -/
theorem memory_in_step_sample : InStep plainFormats
    (runOf [.apply [registration] true,.buildSnapshot true,
    .apply [] false,.buildSnapshot false,.installSnapshot ⟨some ⟨1,1,2⟩,default,"s"⟩
    (.inl newerState) false true,.reopen]) := by
  refine memory_in_step_with_disk plainFormats _ ⟨⟨.inr rfl,?_⟩,trivial,⟨.inl rfl,by simp⟩,trivial,
    ?_,trivial,trivial⟩
  · intro e _ x hx
    cases hx
  · intro _ _ h
    cases h

def applied : ℕ := (data.lastAppliedLog.map (·.index+1)).getD 0

/-- The state behind the first `n` entries. -/
def behind (log : List Entry) (n : ℕ) : StateMachineData := (applyEntries default (log.take n)).1

def Replays (log : List Entry) (data : StateMachineData) : Prop :=
  applied data ≤ log.length ∧ data = behind log (applied data)

/-- A node gets the entries that come next in the log, and snapshots of parts of it. -/
def FromLog (f : Formats β) (log : List Entry) (m : HirnStateMachine β) : Operation β → Prop
  | .apply entries _ => entries <+: log.drop (applied m.data)
  | .installSnapshot _ payload .. => ∀ new ∈ f.fromJson payload, Replays log new
  | _ => True

theorem applyEntries_append (es es' : List Entry) :
    (applyEntries data (es++es')).1 = (applyEntries (applyEntries data es).1 es').1 := by
  induction es generalizing data with
  | nil => rfl
  | cons e es ih => exact ih (applyEntry data e).1

section
open List
variable {log : List Entry} (hlog : log.map (·.logId.index) = range log.length)
include hlog

theorem replays_behind (hn : n ≤ log.length) : Replays log (behind log n) := by
  have happlied : applied (behind log n) = n := by
    cases n with
    | zero => rfl
    | succ n =>
      have hindex : some log[n].logId.index = some n := by
        rw [← getElem?_range hn,← hlog,getElem?_map,getElem?_eq_getElem hn,Option.map_some]
      rw [behind,take_succ_eq_append_getElem hn,applyEntries_append,applied]
      simpa [applyEntries,applyEntry_lastAppliedLog] using hindex
  rw [Replays,happlied]
  exact ⟨hn,rfl⟩

theorem replays_apply (h : Replays log data) (hnext : entries <+: log.drop (applied data)) :
    Replays log (applyEntries data entries).1 := by
  have hlength := hnext.length_le
  rw [length_drop] at hlength
  have hbehind := replays_behind hlog (show applied data+entries.length ≤ log.length by have := h.1; omega)
  rwa [behind,take_add,applyEntries_append,← prefix_iff_eq_take.mp hnext,← behind,← h.2] at hbehind

theorem replays_step (m : HirnStateMachine β) (op : Operation β) (hok : FromLog f log m op)
    (h : Replays log m.data ∧ ∀ stored ∈ loadState f m.db, Replays log stored) :
    Replays log (m.step f op).data ∧ ∀ stored ∈ loadState f (m.step f op).db, Replays log stored := by
  -- what is committed is read back
  have hstored {new} (hnew : Replays log new) : ∀ stored ∈ f.decodeState (f.encodeState new),
    Replays log stored := by
    simpa [f.decode_encodeState] using hnew
  cases op with
  | apply entries commits =>
    have hafter := replays_apply m.data hlog h.1 hok
    cases commits with
    | false => exact ⟨hafter,h.2⟩
    | true => exact ⟨hafter,hstored hafter⟩
  | buildSnapshot commits => cases commits <;> exact h
  | installSnapshot info payload stateCommits snapshotCommits =>
    rw [HirnStateMachine.step,installSnapshot]
    split
    next => exact h
    next new hnew =>
      have hnew := hok new hnew
      cases stateCommits <;> cases snapshotCommits
      exacts [h,h,⟨h.1,hstored hnew⟩,⟨hnew,hstored hnew⟩]
  | reopen =>
    rw [HirnStateMachine.step]
    cases hopen : HirnStateMachine.open f m.db with
    | none => exact h
    | some reloaded =>
      obtain ⟨hload,-,-,hdb⟩ := open_eq_some.mp hopen
      exact ⟨h.2 _ hload,by rw [Option.getD_some,hdb]; exact h.2⟩
end

/-- Whatever batches, snapshots, failed commits and restarts brought a node to its last id, its state is
the one behind the log up to that id, so that nodes with the same last id agree. -/
theorem state_of_last_id {β : Type} (f : Formats β) (log : List Entry)
    (hlog : log.map (·.logId.index) = List.range log.length) (ops : List (Operation β))
    (hok : Admissible (step f) (FromLog f log) .fresh ops) :
    Replays log (exec (step f) .fresh ops).data := by
  have hdefault : Replays log default := replays_behind hlog (Nat.zero_le _)
  exact (invariant (s := fresh) (replays_step (f := f) hlog)
    ⟨hdefault,fun _ h => Option.some.inj h ▸ hdefault⟩ hok).1

/-- A batch is lost and comes again. -/
theorem state_of_last_id_sample : Replays [⟨⟨1,1,0⟩,.blank⟩,registration]
    (runOf [.apply [⟨⟨1,1,0⟩,.blank⟩] true,.apply [registration] false,.reopen,
    .apply [registration] true]).data :=
  state_of_last_id plainFormats _ rfl _ ⟨⟨_,rfl⟩,⟨_,rfl⟩,trivial,⟨_,rfl⟩,trivial⟩
end Hirn.Raft
