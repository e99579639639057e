import Mathlib

/-! The temporal calculus: intervals over event time and Allen's relations between them. Instants
count nanoseconds; intervals are compared by their milliseconds. -/
namespace Hirn.Temporal

/-- `i64::MAX`, the end of an interval without one. -/
def openEndMs : ℤ := 2^63-1

/-- Nanoseconds since the epoch, as far as `chrono` counts. -/
structure Timestamp where
  nanos : ℤ
  bounded : nanos/10^6 < openEndMs
  deriving DecidableEq

def Timestamp.timestampMs (t : Timestamp) : ℤ := t.nanos/10^6

structure TimeInterval where
  start : Timestamp
  stop : Option Timestamp
  ordered : ∀ e ∈ stop, start.nanos ≤ e.nanos

inductive AllenRelation
  | before | after | meets | metBy | overlaps | overlappedBy | starts | startedBy | during | contains | finishes
  | finishedBy | equals
  deriving DecidableEq

def AllenRelation.inverse : AllenRelation → AllenRelation
  | before => after
  | after => before
  | meets => metBy
  | metBy => meets
  | overlaps => overlappedBy
  | overlappedBy => overlaps
  | starts => startedBy
  | startedBy => starts
  | during => contains
  | contains => during
  | finishes => finishedBy
  | finishedBy => finishes
  | equals => equals

namespace TimeInterval

def new (start : Timestamp) : Option Timestamp → TimeInterval
  | none => ⟨start,none,by simp⟩
  | some e => if h : e.nanos < start.nanos then ⟨start,some start,by simp⟩ else
      ⟨start,some e,by simpa using h⟩

variable (a b c : TimeInterval)

def isPoint : Bool := a.stop = some a.start
def startMs : ℤ := a.start.timestampMs
def endMs : ℤ := (a.stop.map (·.timestampMs)).getD openEndMs
def contains (instant : Timestamp) : Bool :=
  a.startMs ≤ instant.timestampMs ∧ instant.timestampMs < a.endMs

def relationTo : AllenRelation :=
  if a.startMs = b.startMs ∧ a.endMs = b.endMs then .equals
  else if a.endMs < b.startMs then .before
  else if b.endMs < a.startMs then .after
  else if a.endMs = b.startMs then .meets
  else if a.startMs = b.endMs then .metBy
  else if a.startMs = b.startMs then if a.endMs < b.endMs then .starts else .startedBy
  else if a.endMs = b.endMs then if b.startMs < a.startMs then .finishes else .finishedBy
  else if a.startMs < b.startMs ∧ b.endMs < a.endMs then .contains
  else if b.startMs < a.startMs ∧ a.endMs < b.endMs then .during
  else if a.startMs < b.startMs then .overlaps
  else .overlappedBy

def precedes : Bool := a.relationTo b = .before ∨ a.relationTo b = .meets
def overlapsWith : Bool := a.startMs < b.endMs ∧ b.startMs < a.endMs

/-- The laws of the algebra; transitivity and asymmetry hold of points as well. -/
structure AllenLaws : Prop where
  converse : b.relationTo a = (a.relationTo b).inverse
  equals : a.relationTo b = .equals ↔ a.startMs = b.startMs ∧ a.endMs = b.endMs
  overlap : a.overlapsWith b ↔ a.relationTo b ∉ [.before,.after,.meets,.metBy] ∧
    ¬ (a.relationTo b = .equals ∧ a.isPoint ∧ b.isPoint)
  trans : a.precedes b → b.precedes c → a.precedes c
  asymm : a.precedes b → ¬ b.precedes a
  shared : ∀ t, a.contains t → b.contains t → a.overlapsWith b

variable {a b c}

theorem startMs_le : a.startMs ≤ a.endMs := by
  obtain ⟨start,stop,hordered⟩ := a
  cases stop with
  | none => exact start.bounded.le
  | some e => exact Int.ediv_le_ediv (by norm_num) (hordered e rfl)

/-- What the relations mean. -/
def Holds (a b : TimeInterval) : AllenRelation → Prop
  | .before => a.endMs < b.startMs
  | .after => b.endMs < a.startMs
  | .meets => a.endMs = b.startMs ∧ a.startMs < b.endMs
  | .metBy => a.startMs = b.endMs ∧ b.startMs < a.endMs
  | .overlaps => a.startMs < b.startMs ∧ b.startMs < a.endMs ∧ a.endMs < b.endMs
  | .overlappedBy => b.startMs < a.startMs ∧ a.startMs < b.endMs ∧ b.endMs < a.endMs
  | .starts => a.startMs = b.startMs ∧ a.startMs < a.endMs ∧ a.endMs < b.endMs
  | .startedBy => a.startMs = b.startMs ∧ b.startMs < b.endMs ∧ b.endMs < a.endMs
  | .during => b.startMs < a.startMs ∧ a.endMs < b.endMs
  | .contains => a.startMs < b.startMs ∧ b.endMs < a.endMs
  | .finishes => a.endMs = b.endMs ∧ b.startMs < a.startMs ∧ a.startMs < a.endMs
  | .finishedBy => a.endMs = b.endMs ∧ a.startMs < b.startMs ∧ b.startMs < b.endMs
  | .equals => a.startMs = b.startMs ∧ a.endMs = b.endMs

theorem holds_relationTo (a b : TimeInterval) : Holds a b (a.relationTo b) := by
  have ha := a.startMs_le
  have hb := b.startMs_le
  rw [relationTo]
  repeat' apply iteInduction (motive := Holds a b) <;> intro
  all_goals simp only [Holds]; omega

theorem Holds.unique {r r' : AllenRelation} (h : Holds a b r) (h' : Holds a b r') : r = r' := by
  have ha := a.startMs_le
  have hb := b.startMs_le
  cases r <;> cases r' <;> first | rfl | (simp only [Holds] at h h'; omega)

theorem relationTo_iff {r : AllenRelation} : a.relationTo b = r ↔ Holds a b r :=
  ⟨fun h => h ▸ holds_relationTo a b,(holds_relationTo a b).unique⟩

theorem Holds.inverse {r : AllenRelation} (h : Holds a b r) : Holds b a r.inverse := by
  cases r <;> simp only [Holds,AllenRelation.inverse] at * <;> omega

theorem precedes_iff : a.precedes b ↔ a.endMs ≤ b.startMs ∧ ¬ Holds a b .equals := by
  have ha := a.startMs_le
  have hb := b.startMs_le
  simp only [precedes,decide_eq_true_eq,relationTo_iff,Holds]
  omega

theorem endMs_of_isPoint (h : a.isPoint) : a.startMs = a.endMs := by
  simp only [isPoint,decide_eq_true_eq] at h
  simp [startMs,endMs,h]

def SameMillisecond (a b : TimeInterval) : Prop :=
  a.startMs = a.endMs ∧ b.startMs = a.startMs ∧ b.endMs = a.endMs

theorem overlapsWith_iff :
    a.overlapsWith b ↔ a.relationTo b ∉ [.before,.after,.meets,.metBy] ∧ ¬ SameMillisecond a b := by
  have ha := a.startMs_le
  have hb := b.startMs_le
  simp only [overlapsWith,decide_eq_true_eq,List.mem_cons,List.not_mem_nil,or_false,relationTo_iff,
    Holds,SameMillisecond]
  omega

def fleeting : TimeInterval := new ⟨100000,by decide⟩ (some ⟨900000,by decide⟩)

end TimeInterval
end Hirn.Temporal
