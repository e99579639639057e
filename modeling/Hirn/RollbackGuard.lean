import Hirn.EventLog

/-! The high-water mark in the sidecar. Whatever fails or crashes, the mark is not behind an event
whose append was acknowledged and not ahead of the newest event that was stored. -/
namespace Hirn.EventLog
open Bytes Runs List Option Prod
variable {ext : Externals} {head tag : String} {m : EventRow} {seq : ℕ} {rows : List EventRow}

theorem loadHwmFile_write : loadHwmFile ext (writeHwmFile ext seq head) =
    .ok (some ⟨seq,head,hexEncode (hwmMac ext seq head)⟩) := by
  rw [writeHwmFile,loadHwmFile,hexDecode_hexEncode,if_pos rfl]

def Process.behind (m : EventRow) : Process := ⟨m.seq+1,m.hmac,none,[],false⟩
theorem openInner_nil_absent : openInner ext true [] .absent =
    .ok (⟨0,none,none,[],false⟩,.absent) := rfl

theorem openInner_nil_write : openInner ext true [] (writeHwmFile ext seq head) =
    .error (.emptyDataset seq) := by
  simp only [openInner,checkAgainstHwm,loadHwmFile_write]
  rfl

theorem openInner_absent (h : newestRow rows = some m) (htag : m.hmac = some tag) :
    openInner ext true rows .absent = .ok (Process.behind m,writeHwmFile ext m.seq tag) := by
  have hnext : recoverNextSeq rows = m.seq+1 := by simp [recoverNextSeq,h]
  have hhead : recoverChainHead rows = some tag := by simp [recoverChainHead,h,htag]
  rw [openInner,hnext,hhead,Process.behind,htag]
  simp [checkAgainstHwm,loadHwmFile]

theorem openInner_write (h : newestRow rows = some m) (htag : m.hmac = some tag) :
    openInner ext true rows (writeHwmFile ext seq head) =
      if m.seq < seq then .error (.rolledBack seq m.seq)
      else if seq = m.seq ∧ tag ≠ head then .error (.otherTag m.seq)
      else .ok (Process.behind m,if seq < m.seq then writeHwmFile ext m.seq tag else
        writeHwmFile ext seq head) := by
  have hnext : recoverNextSeq rows = m.seq+1 := by simp [recoverNextSeq,h]
  have hhead : recoverChainHead rows = some tag := by simp [recoverChainHead,h,htag]
  rw [openInner,hnext,hhead,Process.behind,htag,checkAgainstHwm,loadHwmFile_write]
  simp only [Nat.add_one_ne_zero,if_false,Nat.add_sub_cancel,ne_eq,some.injEq]
  split_ifs <;> rfl

theorem openInner_behind (h : ∀ r ∈ rows, r.seq < seq) :
    ∃ err, openInner ext true rows (writeHwmFile ext seq head) = .error err := by
  cases hnewest : newestRow rows with
  | none =>
    rw [newestRow_eq_none.mp hnewest,openInner_nil_write]
    exact ⟨_,rfl⟩
  | some m =>
    have hlt := h m (newestRow_mem hnewest)
    have hnext : recoverNextSeq rows = m.seq+1 := by simp [recoverNextSeq,hnewest]
    simp only [openInner,hnext,checkAgainstHwm,loadHwmFile_write,Nat.add_sub_cancel,if_pos hlt]
    exact ⟨_,rfl⟩

variable {e : EventEnvelope} {s : Log}

/-- The sidecar's mark, against the newest event and the acknowledged ones. -/
structure Durable (ext : Externals) (rows : List EventRow) (sidecar : Sidecar)
    (history : List EventEnvelope) (acknowledged : List ℕ) : Prop where
  known : ∀ r ∈ rows, ∃ e ∈ history, r = rowFor ext e
  tagged : ∀ e ∈ history, ∃ tag, e.hmac = some tag
  newest : ∀ e, history.getLast? = some e → ∀ r ∈ rows, r = rowFor ext e ∨ r.seq < e.seq
  mark : sidecar = .absent ∧ acknowledged = [] ∨
    ∃ seq head e, sidecar = writeHwmFile ext seq head ∧ history.getLast? = some e ∧
      (seq < e.seq ∨ seq = e.seq ∧ e.hmac = some head) ∧ ∀ a ∈ acknowledged, a ≤ seq

/-- All that is durable lies below a number. -/
structure Below (n : ℕ) (rows : List EventRow) (sidecar : Sidecar) : Prop where
  rows : ∀ r ∈ rows, r.seq < n
  mark : ∀ record, sidecar = .holding record → record.seq < n

variable {sidecar : Sidecar}

theorem Below.mono {m : ℕ} (h : Below m rows sidecar) (hmn : m ≤ n) :
    Below n rows sidecar where
  rows r hr := (h.rows r hr).trans_le hmn
  mark record hrecord := (h.mark record hrecord).trans_le hmn

/-- Where a process stands between the steps of an append. -/
inductive Placed (rows : List EventRow) (sidecar : Sidecar) (history : List EventEnvelope)
    (p : Process) : Prop
  | idle (critical : p.critical = none) (below : Below p.nextSeq rows sidecar)
  | signed (es : List EventEnvelope) (c : Option Compaction) (n : ℕ)
      (critical : p.critical = some (.signed es c))
      (nonempty : es ≠ []) (numbered : es.map (·.seq) = List.range' n es.length)
      (next : p.nextSeq = n+es.length)
      (tagged : ∀ e ∈ es, ∃ tag, e.hmac = some tag) (below : Below n rows sidecar)
  | stored (es : List EventEnvelope) (e : EventEnvelope) (critical : p.critical = some (.stored es))
      (last : es.getLast? = some e) (newest : history.getLast? = some e) (highest : ∀ x ∈ es,
      x.seq ≤ e.seq) (next : p.nextSeq = e.seq+1) (below : Below p.nextSeq rows sidecar)

structure Tracked (ext : Externals) (s : Log) : Prop where
  durable : Durable ext s.rows s.sidecar s.history s.acknowledged
  process : ∀ p, s.process = some p → Placed s.rows s.sidecar s.history p

variable {p : Process}

theorem tracked_empty : Tracked ext Log.empty where
  durable := ⟨by simp [Log.empty],by simp [Log.empty],by simp [Log.empty],.inl ⟨rfl,rfl⟩⟩
  process := by simp [Log.empty]

theorem le_last_of_numbered {es : List EventEnvelope} {x : EventEnvelope}
    (h : es.map (·.seq) = List.range' n es.length) (hlast : es.getLast? = some e) (hx : x ∈ es) :
    n ≤ x.seq ∧ x.seq ≤ e.seq ∧ e.seq+1 = n+es.length ∧ (x = e ∨ x.seq < e.seq) := by
  obtain ⟨ds,rfl⟩ := getLast?_eq_some_iff.mp hlast
  rw [map_append,length_append,length_singleton,range'_concat,Nat.one_mul,
    map_singleton] at h
  obtain ⟨hds,hlastSeq⟩ := append_inj h (by simp)
  have he : e.seq = n+ds.length := by simpa using hlastSeq
  have hbounds : x = e ∨ n ≤ x.seq ∧ x.seq < n+ds.length := by
    rcases mem_append.mp hx with hx | hx
    · have hmem : x.seq ∈ List.range' n ds.length := hds ▸ mem_map_of_mem hx
      exact .inr (mem_range'_1.mp hmem)
    · exact .inl (mem_singleton.mp hx)
  have hlength : (ds++[e]).length = ds.length+1 := by simp
  rcases hbounds with rfl | ⟨hle,hlt⟩
  · exact ⟨by omega,le_rfl,by omega,.inl rfl⟩
  · exact ⟨hle,by omega,by omega,.inr (by omega)⟩

theorem Tracked.signed (h : Tracked ext s)
    (hdrafts : drafts ≠ []) (hbelow : Below p.nextSeq s.rows s.sidecar) :
    Tracked ext {s with process := some (Process.sign ext p drafts c)} where
  durable := h.durable
  process := by
    rintro q hq
    obtain rfl : Process.sign ext p drafts c = q := some.inj hq
    refine .signed (signBatch ext p.nextSeq p.chainHead drafts) c p.nextSeq rfl
      (signBatch_nonempty hdrafts) ?_ ?_ ?_ hbelow
    · rw [signBatch_seq,length_signBatch]
    · rw [length_signBatch]
      rfl
    · exact fun e he => ⟨_,signBatch_signed he⟩

theorem Tracked.idle (h : Tracked ext s) (hcritical : p.critical = none)
    (hbelow : Below p.nextSeq s.rows s.sidecar) : Tracked ext {s with process := some p} where
  durable := h.durable
  process := by
    rintro q hq
    obtain rfl : p = q := some.inj hq
    exact .idle hcritical hbelow

variable {history : List EventEnvelope}

theorem Placed.of_subset (h : Placed rows sidecar history p) (hcritical : q.critical = p.critical)
    (hnext : q.nextSeq = p.nextSeq) (hrows : ∀ r ∈ rows', r ∈ rows) :
    Placed rows' sidecar history q := by
  have hbelow : ∀ n, Below n rows sidecar → Below n rows' sidecar := fun n hn =>
    ⟨fun r hr => hn.rows r (hrows r hr),hn.mark⟩
  rcases h with ⟨hc,hb⟩ | ⟨es,c,n,hc,hne,hnum,hn,htag,hb⟩ | ⟨es,e,hc,hlast,hnew,hnum,hn,hb⟩
  · exact .idle (hcritical.trans hc) (hnext ▸ hbelow _ hb)
  · exact .signed es c n (hcritical.trans hc) hne hnum (hnext.trans hn) htag (hbelow _ hb)
  · exact .stored es e (hcritical.trans hc) hlast hnew hnum (hnext.trans hn) (hnext ▸ hbelow _ hb)

section
variable (h : Tracked ext s)
include h

section
variable (hp : s.process = some p)
include hp

theorem Tracked.compactions (keep : EventRow → Bool) (cs : List Compaction) :
    Tracked ext {s with rows := s.rows.filter keep,process := some {p with compactions := cs}} where
  durable := by
    have hsub : ∀ r ∈ s.rows.filter keep, r ∈ s.rows := fun r hr => mem_of_mem_filter hr
    exact ⟨fun r hr => h.durable.known r (hsub r hr),h.durable.tagged,
      fun e he r hr => h.durable.newest e he r (hsub r hr),h.durable.mark⟩
  process := by
    rintro q hq
    obtain rfl := some.inj hq
    exact (h.process p hp).of_subset rfl rfl fun r hr => mem_of_mem_filter hr

theorem Tracked.stored : Tracked ext (stepProcess ext true s p .stored) := by
  rcases h.process p hp with ⟨hc,-⟩ | ⟨es,c,n,hc,hne,hnum,hn,htag,hbelow⟩ | ⟨es,e,hc,-⟩
  · simpa only [stepProcess,hc] using h
  · simp only [stepProcess,hc]
    obtain ⟨last,hlast⟩ : ∃ last, es.getLast? = some last := ⟨_,getLast?_eq_some_getLast hne⟩
    have hlastMem : last ∈ es := mem_of_getLast? hlast
    have hbatch : ∀ x ∈ es, _ := fun x hx => le_last_of_numbered hnum hlast hx
    obtain ⟨hle,-,hlastSeq,-⟩ := hbatch last hlastMem
    have hnewest : (s.history++es).getLast? = some last := by rw [getLast?_append,hlast,some_or]
    have hold : ∀ r ∈ s.rows, r.seq < last.seq := fun r hr => (hbelow.rows r hr).trans_le hle
    have hrows : ∀ r ∈ s.rows++es.map (rowFor ext), r ∈ s.rows ∨ ∃ x ∈ es, rowFor ext x = r := by
      simp
    refine ⟨⟨?_,?_,?_,?_⟩,?_⟩
    · intro r hr
      rcases hrows r hr with hr | ⟨x,hx,rfl⟩
      · obtain ⟨x,hx,hrx⟩ := h.durable.known r hr
        exact ⟨x,mem_append_left _ hx,hrx⟩
      · exact ⟨x,mem_append_right _ hx,rfl⟩
    · intro x hx
      rcases mem_append.mp hx with hx | hx
      · exact h.durable.tagged x hx
      · exact htag x hx
    · intro e he r hr
      obtain rfl : last = e := some.inj (hnewest.symm.trans he)
      rcases hrows r hr with hr | ⟨x,hx,rfl⟩
      · exact .inr (hold r hr)
      · rcases (hbatch x hx).2.2.2 with rfl | hlt
        · exact .inl rfl
        · exact .inr hlt
    · rcases h.durable.mark with habsent | ⟨seq,head,e,hsidecar,-,-,hacked⟩
      · exact .inl habsent
      · have hseq : seq < n := hbelow.mark _ hsidecar
        exact .inr ⟨seq,head,last,hsidecar,hnewest,.inl (hseq.trans_le hle),hacked⟩
    · rintro q hq
      obtain rfl := some.inj hq
      refine .stored es last rfl hlast hnewest (fun x hx => (hbatch x hx).2.1)
        (hn.trans hlastSeq.symm) ?_
      have hnext : n ≤ p.nextSeq := by omega
      refine ⟨?_,(hbelow.mono hnext).mark⟩
      intro r hr
      show r.seq < p.nextSeq
      rcases hrows r hr with hr | ⟨x,hx,rfl⟩
      · have := hold r hr
        omega
      · have : x.seq ≤ last.seq := (hbatch x hx).2.1
        show x.seq < p.nextSeq
        omega
  · simpa only [stepProcess,hc] using h

theorem Tracked.storeFailed : Tracked ext (stepProcess ext true s p .storeFailed) := by
  rcases h.process p hp with ⟨hc,-⟩ | ⟨es,c,n,hc,hne,hnum,hn,htag,hbelow⟩ | ⟨es,e,hc,-⟩
  · simpa only [stepProcess,hc] using h
  · simp only [stepProcess,hc]
    exact h.idle rfl (hbelow.mono (by show n ≤ p.nextSeq; omega))
  · simpa only [stepProcess,hc] using h

theorem Tracked.finish (written : Bool) :
    Tracked ext (stepProcess ext true s p (.finish written)) := by
  rcases h.process p hp with ⟨hc,-⟩ | ⟨es,c,n,hc,-⟩ | ⟨es,last,hc,hlast,hnewest,hhighest,hn,hbelow⟩
  · simpa only [stepProcess,hc] using h
  · simpa only [stepProcess,hc] using h
  · cases written with
    | false =>
      simp only [stepProcess,hc]
      exact h.idle rfl hbelow
    | true =>
      simp only [stepProcess,hc]
      obtain ⟨tag,htag⟩ := h.durable.tagged last (mem_of_getLast? hnewest)
      have hsidecar : advanceHwm ext true s.sidecar es = writeHwmFile ext last.seq tag := by
        simp [advanceHwm,hlast,htag]
      rw [hsidecar]
      refine ⟨⟨h.durable.known,h.durable.tagged,h.durable.newest,
        .inr ⟨last.seq,tag,last,rfl,hnewest,.inr ⟨rfl,htag⟩,?_⟩⟩,?_⟩
      · intro a ha
        rcases mem_append.mp ha with ha | ha
        · rcases h.durable.mark with ⟨-,hnil⟩ | ⟨seq,head,e,-,he,hseq,hacked⟩
          · simp [hnil] at ha
          · obtain rfl : last = e := some.inj (hnewest.symm.trans he)
            have hle : seq ≤ last.seq := hseq.elim le_of_lt fun heq => heq.1.le
            exact (hacked a ha).trans hle
        · obtain ⟨x,hx,rfl⟩ := mem_map.mp ha
          exact hhighest x hx
      · rintro q hq
        obtain rfl := some.inj hq
        refine .idle rfl ⟨hbelow.rows,?_⟩
        intro record hrecord
        have hseq : last.seq = record.seq := congrArg HwmRecord.seq (Sidecar.holding.inj hrecord)
        show record.seq < p.nextSeq
        omega
end
end
variable {acknowledged : List ℕ}

section
variable (h : Durable ext rows sidecar history acknowledged)
include h

theorem Durable.marked
    (hm : newestRow rows = some m) (htag : m.hmac = some tag)
    (hacked : ∀ a ∈ acknowledged, a ≤ m.seq) :
    Durable ext rows (writeHwmFile ext m.seq tag) history acknowledged where
  known := h.known
  tagged := h.tagged
  newest := h.newest
  mark := by
    have hmem := newestRow_mem hm
    obtain ⟨x,hx,-⟩ := h.known m hmem
    obtain ⟨e,he⟩ : ∃ e, history.getLast? = some e :=
      ⟨_,getLast?_eq_some_getLast (ne_nil_of_mem hx)⟩
    refine .inr ⟨m.seq,tag,e,rfl,he,?_,hacked⟩
    rcases h.newest e he m hmem with rfl | hlt
    · exact .inr ⟨rfl,htag⟩
    · exact .inl hlt

theorem Durable.tagged_row (hr : r ∈ rows) : ∃ tag, r.hmac = some tag := by
  obtain ⟨x,hx,rfl⟩ := h.known r hr
  exact h.tagged x hx
end

theorem below_write (hm : newestRow rows = some m)
    (hseq : seq ≤ m.seq) : Below (m.seq+1) rows (writeHwmFile ext seq head) where
  rows r hr := Nat.lt_succ_of_le (le_newestRow hm hr)
  mark record hrecord := by
    obtain rfl := Sidecar.holding.inj hrecord
    exact Nat.lt_succ_of_le hseq

theorem Durable.reopen (h : Durable ext rows sidecar history acknowledged)
    (hopen : openInner ext true rows sidecar = .ok (p,sidecar')) :
    Durable ext rows sidecar' history acknowledged ∧ p.critical = none ∧
    Below p.nextSeq rows sidecar' := by
  cases hm : newestRow rows with
  | none =>
    obtain rfl := newestRow_eq_none.mp hm
    rcases h.mark with ⟨rfl,-⟩ | ⟨seq,head,e,rfl,-⟩
    · obtain ⟨rfl,rfl⟩ := mk.inj (Except.ok.inj hopen)
      exact ⟨h,rfl,by simp,by simp⟩
    · rw [openInner_nil_write] at hopen
      cases hopen
  | some m =>
    obtain ⟨tag,htag⟩ := h.tagged_row (newestRow_mem hm)
    rcases h.mark with ⟨rfl,rfl⟩ | ⟨seq,head,e,rfl,-,-,hacked⟩
    · rw [openInner_absent hm htag] at hopen
      obtain ⟨rfl,rfl⟩ := mk.inj (Except.ok.inj hopen)
      exact ⟨h.marked hm htag (by simp),rfl,below_write hm le_rfl⟩
    · rw [openInner_write hm htag] at hopen
      split_ifs at hopen with hback hother hlag
      · obtain ⟨rfl,rfl⟩ := mk.inj (Except.ok.inj hopen)
        exact ⟨h.marked hm htag fun a ha => (hacked a ha).trans hlag.le,rfl,below_write hm le_rfl⟩
      · obtain ⟨rfl,rfl⟩ := mk.inj (Except.ok.inj hopen)
        exact ⟨h,rfl,below_write hm (not_lt.mp hback)⟩

theorem Tracked.begin (h : Tracked ext s) (hp : s.process = some p) (hdrafts : drafts ≠ [])
    (hcritical : p.critical = none) (cs : List Compaction) (c : Option Compaction) :
    Tracked ext {s with process := some (Process.sign ext {p with compactions := cs} drafts c)} := by
  rcases h.process p hp with ⟨-,hbelow⟩ | ⟨es,c,n,hc,-⟩ | ⟨es,last,hc,-⟩
  · exact h.signed hdrafts hbelow
  · simp [hc] at hcritical
  · simp [hc] at hcritical

theorem Tracked.stepProcess (h : Tracked ext s) (hp : s.process = some p) (a : Event) :
    Tracked ext (stepProcess ext true s p a) := by
  cases a with
  | reopen => exact h
  | begin drafts =>
    rw [EventLog.stepProcess]
    split_ifs with hfree
    · exact h.begin hp hfree.2 hfree.1 p.compactions none
    · exact h
  | delete beforeSeq => exact h.compactions hp _ _
  | abandon i =>
    have hkeep := h.compactions hp (fun _ => true) (p.compactions.eraseIdx i)
    rwa [filter_true] at hkeep
  | checkpoint i timestampUs =>
    simp only [EventLog.stepProcess]
    split
    · rename_i c hc hcritical
      exact h.begin hp (by simp) hcritical _ _
    · exact h
  | stored => exact h.stored hp
  | storeFailed => exact h.storeFailed hp
  | finish written => exact h.finish hp written
  | crash => exact ⟨h.durable,by simp [EventLog.stepProcess]⟩

theorem Tracked.step (h : Tracked ext s) (a : Event) : Tracked ext (step ext true s a) := by
  cases hp : s.process with
  | some p =>
    simp only [EventLog.step,hp]
    exact h.stepProcess hp a
  | none =>
    by_cases ha : a = .reopen
    · subst ha
      simp only [EventLog.step,hp]
      cases hopen : openInner ext true s.rows s.sidecar with
      | error err => exact h
      | ok opened =>
        obtain ⟨hdurable,hcritical,hbelow⟩ := h.durable.reopen hopen
        refine ⟨hdurable,?_⟩
        intro q hq
        obtain rfl := some.inj hq
        exact .idle hcritical hbelow
    · rw [step_closed hp ha]
      exact h

theorem tracked_exec (events : List Event) :
    Tracked ext (exec (EventLog.step ext true) Log.empty events) :=
  invariant_of_forall (Q := fun _ => True) (fun _ a _ h => h.step a) tracked_empty (by simp)

def Continues (ext : Externals) (s : Log) : Prop :=
  ∃ p sidecar, openInner ext true s.rows s.sidecar = .ok (p,sidecar) ∧
    p.nextSeq = (s.history.getLast?.map (·.seq+1)).getD 0 ∧
    p.chainHead = s.history.getLast?.bind (·.hmac)

def KeepsNewest (ext : Externals) (s : Log) : Prop :=
  ∀ e, s.history.getLast? = some e → rowFor ext e ∈ s.rows

theorem Tracked.newestRow (h : Tracked ext s) (he : s.history.getLast? = some e)
    (hkept : rowFor ext e ∈ s.rows) : newestRow s.rows = some (rowFor ext e) := by
  cases hm : EventLog.newestRow s.rows with
  | none => simp [newestRow_eq_none.mp hm] at hkept
  | some m =>
    have hle : e.seq ≤ m.seq := le_newestRow hm hkept
    rcases h.durable.newest e he m (newestRow_mem hm) with rfl | hlt
    · rfl
    · omega

theorem Tracked.continues_iff (h : Tracked ext s) : Continues ext s ↔ KeepsNewest ext s := by
  constructor
  · rintro ⟨p,sidecar,hopen,hnext,-⟩ e he
    rw [he] at hnext
    have hp : p.nextSeq = recoverNextSeq s.rows := by rw [openInner_eq_ok hopen]
    cases hm : EventLog.newestRow s.rows with
    | none => simp [recoverNextSeq,hm,hnext] at hp
    | some m =>
      have hseq : m.seq = e.seq := by
        rw [hnext,recoverNextSeq,hm] at hp
        exact (Nat.succ_injective hp).symm
      have hmem := newestRow_mem hm
      rcases h.durable.newest e he m hmem with rfl | hlt
      · exact hmem
      · omega
  · intro hkept
    cases he : s.history.getLast? with
    | none =>
      have hnil : s.rows = [] := by
        rw [eq_nil_iff_forall_not_mem]
        intro r hr
        obtain ⟨x,hx,-⟩ := h.durable.known r hr
        rw [getLast?_eq_none_iff.mp he] at hx
        cases hx
      rcases h.durable.mark with ⟨hsidecar,-⟩ | ⟨seq,head,e,-,hlast,-⟩
      · rw [Continues,hnil,hsidecar,he]
        exact ⟨_,_,openInner_nil_absent,rfl,rfl⟩
      · simp [he] at hlast
    | some e =>
      have hm := h.newestRow he (hkept e he)
      obtain ⟨tag,htag⟩ := h.durable.tagged e (mem_of_getLast? he)
      rw [Continues,he]
      rcases h.durable.mark with ⟨hsidecar,-⟩ | ⟨seq,head,x,hsidecar,hlast,hmark,-⟩
      · rw [hsidecar,openInner_absent hm htag]
        exact ⟨_,_,rfl,rfl,rfl⟩
      · obtain rfl : e = x := some.inj (he.symm.trans hlast)
        rw [hsidecar,openInner_write hm htag,if_neg,if_neg]
        · exact ⟨_,_,rfl,rfl,rfl⟩
        · rintro ⟨hseq,hother⟩
          rcases hmark with hlt | ⟨-,hhead⟩
          · exact absurd hseq hlt.ne
          · exact hother (some.inj (htag.symm.trans hhead))
        · show ¬e.seq < seq
          rcases hmark with hlt | ⟨heq,-⟩ <;> omega

/-- Behind every run what is durable opens and continues the chain exactly if the newest event is there,
and rows that end below an acknowledged event are refused. -/
theorem rollback_guard_iff (ext : Externals) (events : List Event) :
    let s := exec (step ext true) Log.empty events
    (Continues ext s ↔ KeepsNewest ext s) ∧
      ∀ a ∈ s.acknowledged, ∀ rows : List EventRow, (∀ r ∈ rows, r.seq < a) →
        ∃ err, openInner ext true rows s.sidecar = .error err := by
  intro s
  have htracked : Tracked ext s := tracked_exec events
  refine ⟨htracked.continues_iff,?_⟩
  intro a ha rows hrows
  rcases htracked.durable.mark with ⟨-,hnil⟩ | ⟨seq,head,e,hsidecar,-,-,hacked⟩
  · simp [hnil] at ha
  · rw [hsidecar]
    exact openInner_behind fun r hr => (hrows r hr).trans_le (hacked a ha)

def crashedCompaction : List Event := .reopen::appended 1++[.delete 1,.crash]

/-- The honest log cannot be opened any more. -/
theorem crashed_compaction_locks_out :
    openInner sampleExternals true (exec (step sampleExternals true) Log.empty crashedCompaction).rows
      (exec (step sampleExternals true) Log.empty crashedCompaction).sidecar =
      .error (.emptyDataset 0) := by
  decide +kernel
end Hirn.EventLog
