import Hirn.EventLog

/-! What a run leaves in the dataset of the event log as long as no number is lost and no compaction
ends without its checkpoint: the rows that are kept are a part of one numbered and linked chain. -/
namespace Hirn.EventLog
open Bytes HashChain Runs List EventEnvelope Process Option
variable {ext : Externals} {e : EventEnvelope} {rows : List EventRow} {es : List EventEnvelope}

/-- Behind a root no number is missing and each event names the tag before. -/
def Rooted (boundary : ℕ) : List EventEnvelope → Prop
  | [] => True
  | e::es => (if 0 < boundary then e.seq = boundary else e.prevHmac = none) ∧
      Linked prevHmac hmac e.hmac es ∧
      (e.seq::es.map (·.seq)).IsChain (fun m n => n = m+1)

variable {b : ℕ}

theorem walkChain_some : walkChain ext b (some (ps,t)) es = .ok () ↔
      (∀ e ∈ es, EventEnvelope.Signed ext e) ∧ Linked prevHmac hmac t (es.filter (b ≤ ·.seq)) ∧
      (ps::(es.filter (b ≤ ·.seq)).map (·.seq)).IsChain (fun m n => n = m+1) := by
  induction es generalizing ps t with
  | nil => simp [walkChain,Linked]
  | cons e es ih =>
    rw [walkChain,forall_mem_cons,← verifyHmac_eq_true]
    by_cases hvalid : verifyHmac ext e = true
    · by_cases hbelow : e.seq < b
      · simp [hvalid,hbelow,ih]
      · rw [filter_cons_of_pos (by simpa using hbelow)]
        by_cases hgap : e.seq = ps+1
        · rw [hgap] at hbelow
          by_cases hprev : e.prevHmac = t
          · simp [hvalid,hbelow,hgap,hprev,ih,Linked]
          · simp [hvalid,hbelow,hgap,hprev,Linked]
        · simp [hvalid,hbelow,hgap]
    · simp [hvalid]

theorem walkChain_none : walkChain ext b none es = .ok () ↔
    (∀ e ∈ es, EventEnvelope.Signed ext e) ∧ Rooted b (es.filter (b ≤ ·.seq)) := by
  induction es with
  | nil => simp [walkChain,Rooted]
  | cons e es ih =>
    rw [walkChain,forall_mem_cons,← verifyHmac_eq_true]
    by_cases hvalid : verifyHmac ext e = true
    · by_cases hbelow : e.seq < b
      · simp [hvalid,hbelow,ih]
      · rw [filter_cons_of_pos (by simpa using hbelow),Rooted]
        by_cases hpos : 0 < b
        · by_cases hroot : e.seq = b
          · simp [hvalid,hpos,hroot,walkChain_some]
          · simp [hvalid,hbelow,hpos,hroot]
        · cases hprev : e.prevHmac with
          | none => simp [hvalid,hbelow,hpos,walkChain_some]
          | some t => simp [hvalid,hbelow,hpos]
    · simp [hvalid]

theorem decodeRows_map (es : List EventEnvelope) : decodeRows ext (es.map (rowFor ext)) = .ok es := by
  induction es with
  | nil => rfl
  | cons e es ih =>
    rw [map_cons,decodeRows,envelopeOf_rowFor,ih]
    rfl

theorem readAll_map (h : es.Pairwise (fun e f => e.seq < f.seq)) :
    readAll ext (es.map (rowFor ext)) = .ok es := by
  have hsorted : (es.map (rowFor ext)).Pairwise (fun r q => r.seq ≤ q.seq) := by
    rw [pairwise_map]
    exact h.imp fun hlt => hlt.le
  rw [readAll,hsorted.insertionSort_eq,decodeRows_map]

theorem verifyChain_eq_ok : verifyChain ext rows = .ok () ↔
    ∃ es, readAll ext rows = .ok es ∧ (∀ e ∈ es, EventEnvelope.Signed ext e) ∧
      Rooted (boundary es) (es.filter (boundary es ≤ ·.seq)) := by
  rw [verifyChain]
  cases readAll ext rows with
  | error err => simp
  | ok es => simp [walkChain_none]

theorem beforeSeq_le_boundary (he : e ∈ es) : e.event.beforeSeq ≤ boundary es := by
  induction es with
  | nil => cases he
  | cons d es ih =>
    rcases mem_cons.mp he with rfl | he
    · exact le_max_left _ _
    · exact (ih he).trans (le_max_right _ _)

variable {i : ℕ}

section

/-- The events are numbered from 0 on, signed, and linked. -/
structure Genuine (ext : Externals) (es : List EventEnvelope) : Prop where
  numbered : es.map (·.seq) = List.range es.length
  signed : ∀ e ∈ es, EventEnvelope.Signed ext e
  linked : Linked prevHmac hmac none es

variable {fs : List EventEnvelope} (h : Genuine ext es)
include h

theorem Genuine.seq_getElem (he : es[i]? = some e) : e.seq = i := by
  have hi : (es.map (·.seq))[i]? = some e.seq := by rw [getElem?_map,he,map_some]
  rw [h.numbered] at hi
  obtain ⟨hlt,hval⟩ := List.getElem?_eq_some_iff.mp hi
  rw [← hval,getElem_range]

theorem Genuine.getElem_seq (he : e ∈ es) : es[e.seq]? = some e := by
  obtain ⟨i,hi⟩ := mem_iff_getElem?.mp he
  rw [h.seq_getElem hi,hi]

theorem Genuine.seq_lt (he : e ∈ es) : e.seq < es.length :=
  (List.getElem?_eq_some_iff.mp (h.getElem_seq he)).1

theorem Genuine.eq_of_seq_eq (he : e ∈ es) (hf : f ∈ es) (hseq : e.seq = f.seq) : e = f := by
  have hi := h.getElem_seq he
  rw [hseq,h.getElem_seq hf] at hi
  exact (some.inj hi).symm

theorem Genuine.rising : es.Pairwise (fun e f => e.seq < f.seq) := by
  rw [← pairwise_map (f := fun e : EventEnvelope => e.seq) (R := (· < ·)),h.numbered]
  exact pairwise_lt_range

theorem Genuine.append (hnumbered : fs.map (·.seq) = List.range' es.length fs.length)
    (hsigned : ∀ e ∈ fs, EventEnvelope.Signed ext e)
    (hlinked : Linked prevHmac hmac (lastTag hmac none es) fs) :
    Genuine ext (es++fs) where
  numbered := by
    have hrange : List.range' 0 es.length++List.range' (0+es.length) fs.length =
        List.range' 0 (es.length+fs.length) := range'_append_1
    rw [Nat.zero_add] at hrange
    rw [map_append,h.numbered,hnumbered,length_append,range_eq_range',range_eq_range',hrange]
  signed e he := (mem_append.mp he).elim (h.signed e) (hsigned e)
  linked := linked_append.mpr ⟨h.linked,hlinked⟩

theorem Genuine.filter_eq_drop (b : ℕ) : es.filter (b ≤ ·.seq) = es.drop b := by
  have htake : (es.take b).filter (b ≤ ·.seq) = [] := by
    rw [filter_eq_nil_iff]
    intro e he
    obtain ⟨i,hi⟩ := mem_iff_getElem?.mp he
    rw [getElem?_take] at hi
    split_ifs at hi with hlt
    rw [h.seq_getElem hi]
    simpa using hlt
  have hdrop : (es.drop b).filter (b ≤ ·.seq) = es.drop b := by
    rw [filter_eq_self]
    intro e he
    obtain ⟨i,hi⟩ := mem_iff_getElem?.mp he
    rw [getElem?_drop] at hi
    rw [h.seq_getElem hi]
    simp
  have hsplit : es.filter (b ≤ ·.seq) = (es.take b++es.drop b).filter (b ≤ ·.seq) := by
    rw [take_append_drop]
  rw [hsplit,filter_append,htake,hdrop,nil_append]

theorem Genuine.rooted_drop (b : ℕ) : Rooted b (es.drop b) := by
  cases hdrop : es.drop b with
  | nil => trivial
  | cons e fs =>
    have he : es[b]? = some e := by
      have hzero : (es.drop b)[0]? = es[b+0]? := getElem?_drop
      rw [hdrop] at hzero
      simpa using hzero.symm
    have hlinked : Linked prevHmac hmac (lastTag hmac none (es.take b))
        (e::fs) := by
      have hsplit := h.linked
      rw [← take_append_drop b es,hdrop,linked_append] at hsplit
      exact hsplit.2
    refine ⟨?_,hlinked.2,?_⟩
    · split_ifs with hpos
      · exact h.seq_getElem he
      · obtain rfl : b = 0 := by omega
        simpa using hlinked.1
    · have hseqs : e.seq::fs.map (·.seq) = (List.range es.length).drop b := by
        rw [← h.numbered,← map_drop,hdrop,map_cons]
      rw [hseqs]
      have hchain : (List.range es.length).IsChain (fun m n => n = m+1) := by
        rw [isChain_iff_getElem]
        simp
      exact hchain.drop b
end
variable {history : List EventEnvelope}

def Process.signing (p : Process) : List Compaction :=
  match p.critical with
  | some (.signed _ checkpoint) => checkpoint.toList
  | _ => []

def Process.unfinished (p : Process) : List Compaction := p.compactions++p.signing
def Log.unfinished (s : Log) : List Compaction := (s.process.map Process.unfinished).getD []

/-- No event is stored after a failed append of its process, and a compaction that deleted stores its
checkpoint. -/
def Process.Careful (p : Process) : Event → Prop
  | .stored => p.failed = false
  | .storeFailed => ∀ c ∈ p.signing, c.removed = 0
  | .abandon i => ∀ c ∈ p.compactions[i]?, c.removed = 0
  | .crash => ∀ c ∈ p.unfinished, c.removed = 0
  | _ => True

instance (p : Process) (a : Event) : Decidable (p.Careful a) := by
  cases a <;> unfold Process.Careful <;> infer_instance

def Careful (s : Log) (a : Event) : Prop := ∀ p ∈ s.process, p.Careful a

instance (s : Log) (a : Event) : Decidable (Careful s a) := inferInstanceAs (Decidable (∀ _ ∈ _, _))

/-- The rows are part of a genuine chain; what is missing lies below a boundary. -/
structure Kept (ext : Externals) (rows : List EventRow) (history : List EventEnvelope)
    (unfinished : List Compaction) : Prop where
  genuine : Genuine ext history
  sublist : rows.Sublist (history.map (rowFor ext))
  exempt : ∀ e ∈ history, e.event.eventType ∈ keptTypes → rowFor ext e ∈ rows
  covered : ∀ e ∈ history, rowFor ext e ∈ rows ∨
    (∃ c ∈ unfinished, c.removed ≠ 0 ∧ e.seq < c.beforeSeq) ∨
    ∃ k ∈ history, e.seq < k.seq ∧ e.seq < k.event.beforeSeq

/-- Where a process stands between the steps of an append. -/
inductive Going (ext : Externals) (history : List EventEnvelope) (p : Process) : Prop
  | idle (critical : p.critical = none) (head : p.chainHead = lastTag hmac none history)
      (next : p.failed = false → p.nextSeq = history.length)
  | signed (es : List EventEnvelope) (c : Option Compaction) (n : ℕ)
      (critical : p.critical = some (.signed es c))
      (nonempty : es ≠ []) (numbered : es.map (·.seq) = List.range' n es.length)
      (next : p.nextSeq = n+es.length)
      (count : p.failed = false → n = history.length) (signed : ∀ e ∈ es,
      EventEnvelope.Signed ext e) (head : p.chainHead = lastTag hmac none history)
      (linked : Linked prevHmac hmac p.chainHead es)
      (checkpoint : ∀ d, c = some d → ∃ k ∈ es, k.event.beforeSeq = d.beforeSeq)
  | stored (es : List EventEnvelope) (critical : p.critical = some (.stored es))
      (head : p.chainHead = lastTag hmac none history)
      (next : p.failed = false → p.nextSeq = history.length)

structure Chained (ext : Externals) (s : Log) : Prop where
  kept : Kept ext s.rows s.history s.unfinished
  process : ∀ p, s.process = some p → Going ext s.history p

variable {s : Log} {p : Process}

theorem chained_empty : Chained ext Log.empty where
  kept := ⟨⟨rfl,by simp [Log.empty],trivial⟩,.refl _,by simp [Log.empty],by simp [Log.empty]⟩
  process := by simp [Log.empty]

section
variable {unfinished : List Compaction}

section
variable (h : Kept ext rows history unfinished)
include h

theorem Kept.of_unfinished
    (hmem : ∀ c ∈ unfinished, c.removed ≠ 0 → c ∈ unfinished') :
    Kept ext rows history unfinished' where
  genuine := h.genuine
  sublist := h.sublist
  exempt := h.exempt
  covered e he := by
    rcases h.covered e he with hrow | ⟨c,hc,hremoved,hlt⟩ | hlater
    · exact .inl hrow
    · exact .inr (.inl ⟨c,hmem c hc hremoved,hremoved,hlt⟩)
    · exact .inr (.inr hlater)

theorem Kept.delete (beforeSeq : ℕ)
    (hmem : ∀ c ∈ unfinished, c ∈ unfinished')
    (hnew : ⟨beforeSeq,rows.countP (fun r => r.compactable beforeSeq)⟩ ∈ unfinished') :
    Kept ext (rows.filter (fun r => !r.compactable beforeSeq)) history unfinished' where
  genuine := h.genuine
  sublist := filter_sublist.trans h.sublist
  exempt e he htype := by
    have hkeep : (rowFor ext e).compactable beforeSeq = false := by
      simp [EventRow.compactable,rowFor,htype]
    exact mem_filter.mpr ⟨h.exempt e he htype,by simp [hkeep]⟩
  covered e he := by
    rcases h.covered e he with hrow | ⟨c,hc,hremoved,hlt⟩ | hlater
    · by_cases hgoes : (rowFor ext e).compactable beforeSeq = true
      · have hcount : rows.countP (fun r => r.compactable beforeSeq) ≠ 0 :=
          (countP_pos_iff.mpr ⟨rowFor ext e,hrow,hgoes⟩).ne'
        have hlt : e.seq < beforeSeq := by
          rw [EventRow.compactable,Bool.and_eq_true,decide_eq_true_eq] at hgoes
          exact hgoes.1
        exact .inr (.inl ⟨_,hnew,hcount,hlt⟩)
      · exact .inl (mem_filter.mpr ⟨hrow,by simp [hgoes]⟩)
    · exact .inr (.inl ⟨c,hmem c hc,hremoved,hlt⟩)
    · exact .inr (.inr hlater)

theorem Kept.append (hgenuine : Genuine ext (history++es))
    (hmem : ∀ c ∈ unfinished, c ∈ unfinished' ∨ ∃ k ∈ es, k.event.beforeSeq = c.beforeSeq) :
    Kept ext (rows++es.map (rowFor ext)) (history++es) unfinished' where
  genuine := hgenuine
  sublist := by
    rw [map_append]
    exact h.sublist.append (.refl _)
  exempt e he htype := by
    rcases mem_append.mp he with he | he
    · exact mem_append_left _ (h.exempt e he htype)
    · exact mem_append_right _ (mem_map_of_mem he)
  covered e he := by
    rcases mem_append.mp he with he | he
    · rcases h.covered e he with hrow | ⟨c,hc,hremoved,hlt⟩ | ⟨k,hk,hlater⟩
      · exact .inl (mem_append_left _ hrow)
      · rcases hmem c hc with hc | ⟨k,hk,hbefore⟩
        · exact .inr (.inl ⟨c,hc,hremoved,hlt⟩)
        · have hlater : e.seq < k.seq :=
            (pairwise_append.mp hgenuine.rising).2.2 e he k hk
          exact .inr (.inr ⟨k,mem_append_right _ hk,hlater,hbefore ▸ hlt⟩)
      · exact .inr (.inr ⟨k,mem_append_left _ hk,hlater⟩)
    · exact .inl (mem_append_right _ (mem_map_of_mem he))
end

theorem Kept.newestRow (h : Kept ext rows history []) (he : history.getLast? = some e) :
    newestRow rows = some (rowFor ext e) := by
  have hmem : e ∈ history := mem_of_getLast? he
  obtain ⟨ds,hds⟩ := getLast?_eq_some_iff.mp he
  have hhighest : ∀ k ∈ history, k.seq ≤ e.seq := by
    intro k hk
    have hrising := h.genuine.rising
    rw [hds] at hk hrising
    rcases mem_append.mp hk with hk | hk
    · exact ((pairwise_append.mp hrising).2.2 k hk e (by simp)).le
    · rw [mem_singleton.mp hk]
  have hrow : rowFor ext e ∈ rows := by
    rcases h.covered e hmem with hrow | ⟨c,hc,-⟩ | ⟨k,hk,hlt,-⟩
    · exact hrow
    · cases hc
    · exact absurd hlt (hhighest k hk).not_gt
  cases hm : EventLog.newestRow rows with
  | none => simp [newestRow_eq_none.mp hm] at hrow
  | some m =>
    obtain ⟨x,hx,rfl⟩ := mem_map.mp (h.sublist.subset (newestRow_mem hm))
    have hle : e.seq ≤ x.seq := le_newestRow hm hrow
    rw [h.genuine.eq_of_seq_eq hx hmem (le_antisymm (hhighest x hx) hle)]

theorem Kept.recover (h : Kept ext rows history []) :
    recoverNextSeq rows = history.length ∧ recoverChainHead rows = lastTag hmac none history := by
  cases he : history.getLast? with
  | none =>
    obtain rfl := getLast?_eq_none_iff.mp he
    have hnil : rows = [] := sublist_nil.mp h.sublist
    rw [hnil]
    exact ⟨rfl,rfl⟩
  | some e =>
    have hm := h.newestRow he
    obtain ⟨ds,rfl⟩ := getLast?_eq_some_iff.mp he
    have hseq : e.seq = ds.length := h.genuine.seq_getElem (by simp)
    rw [recoverNextSeq,recoverChainHead,hm,lastTag_concat,length_append,← hseq]
    exact ⟨rfl,rfl⟩

theorem mem_eraseIdx_or {α : Type*} {l : List α} {a x : α} (hi : l[i]? = some a) (hx : x ∈ l) :
    x ∈ l.eraseIdx i ∨ x = a := by
  obtain ⟨j,hj⟩ := mem_iff_getElem?.mp hx
  by_cases hij : j = i
  · subst hij
    exact .inr (some.inj (hj.symm.trans hi))
  · exact .inl (mem_eraseIdx_iff_getElem?.mpr ⟨j,hij,hj⟩)

variable (hp : s.process = some p)
include hp

theorem Chained.unfinished_eq : s.unfinished = p.unfinished := by
  rw [Log.unfinished,hp]
  rfl

variable (h : Chained ext s)
include h

theorem Chained.begin (hcritical : p.critical = none) (hdrafts : drafts ≠ [])
    (hmem : ∀ d ∈ p.compactions, d ∈ cs ∨ c = some d)
    (hc : ∀ d, c = some d → ∃ k ∈ drafts, k.event.beforeSeq = d.beforeSeq) :
    Chained ext {s with process := some (sign ext {p with compactions := cs} drafts c)} where
  kept := by
    apply h.kept.of_unfinished
    intro d hd _
    rw [Chained.unfinished_eq hp,unfinished,signing,hcritical,append_nil] at hd
    rw [Chained.unfinished_eq rfl,unfinished]
    simpa [Process.sign,Process.signing] using hmem d hd
  process := by
    intro q hq
    obtain rfl := some.inj hq
    rcases h.process p hp with ⟨-,hhead,hnext⟩ | ⟨es,c,n,hc,-⟩ | ⟨es,hc,-⟩
    · refine .signed (signBatch ext p.nextSeq p.chainHead drafts) c p.nextSeq rfl
        (signBatch_nonempty hdrafts) ?_ ?_
        hnext (fun e he => signBatch_signed he) hhead signBatch_linked ?_
      · rw [signBatch_seq,length_signBatch]
      · rw [length_signBatch]
        rfl
      · intro d hd
        obtain ⟨k,hk,hbefore⟩ := hc d hd
        have hevent : k.event ∈ (signBatch ext p.nextSeq p.chainHead drafts).map (·.event) := by
          rw [signBatch_event]
          exact mem_map_of_mem hk
        obtain ⟨e,he,heq⟩ := mem_map.mp hevent
        exact ⟨e,he,heq ▸ hbefore⟩
    · simp [hc] at hcritical
    · simp [hc] at hcritical

omit hp in
omit h in
theorem Going.compactions (h : Going ext history p) (cs : List Compaction) :
    Going ext history {p with compactions := cs} := by
  rcases h with ⟨hc,hhead,hnext⟩ | ⟨es,c,n,hc,hne,hnum,hn,hcount,hsigned,hhead,hlinked,
    hcheck⟩ | ⟨es,hc,hhead,hnext⟩
  · exact .idle hc hhead hnext
  · exact .signed es c n hc hne hnum hn hcount hsigned hhead hlinked hcheck
  · exact .stored es hc hhead hnext

theorem Chained.delete (beforeSeq : ℕ) :
    Chained ext (stepProcess ext guarded s p (.delete beforeSeq)) := by
  refine ⟨h.kept.delete beforeSeq ?_ ?_,?_⟩
  · intro c hc
    rw [Chained.unfinished_eq hp] at hc
    rw [Chained.unfinished_eq rfl,unfinished]
    rcases mem_append.mp hc with hc | hc
    · simp [hc]
    · exact mem_append_right _ hc
  · rw [Chained.unfinished_eq rfl,unfinished]
    simp
  · intro q hq
    obtain rfl := some.inj hq
    exact (h.process p hp).compactions _

theorem Chained.abandon (hcareful : ∀ c ∈ p.compactions[i]?, c.removed = 0) :
    Chained ext (stepProcess ext guarded s p (.abandon i)) where
  kept := by
    apply h.kept.of_unfinished
    intro c hc hremoved
    rw [Chained.unfinished_eq hp] at hc
    rcases mem_append.mp hc with hc | hc
    · apply mem_append_left
      cases hi : p.compactions[i]? with
      | none => rwa [eraseIdx_of_length_le (List.getElem?_eq_none_iff.mp hi)]
      | some d =>
        rcases mem_eraseIdx_or hi hc with hc | rfl
        · exact hc
        · exact absurd (hcareful c hi) hremoved
    · exact mem_append_right _ hc
  process := by
    intro q hq
    obtain rfl := some.inj hq
    exact (h.process p hp).compactions _

theorem Chained.checkpoint (i : ℕ) (timestampUs : ℤ) :
    Chained ext (stepProcess ext guarded s p (.checkpoint i timestampUs)) := by
  simp only [stepProcess]
  split
  · rename_i c hi hcritical
    refine h.begin hp hcritical (by simp) ?_ ?_
    · intro d hd
      rcases mem_eraseIdx_or hi hd with hd | rfl
      · exact .inl hd
      · exact .inr rfl
    · intro d hd
      obtain rfl := some.inj hd
      exact ⟨_,mem_singleton_self _,rfl⟩
  · exact h

theorem Chained.stored (hfailed : p.failed = false) :
    Chained ext (stepProcess ext guarded s p .stored) := by
  rcases h.process p hp with ⟨hc,-⟩ |
    ⟨es,c,n,hc,hne,hnum,hn,hcount,hsigned,hhead,hlinked,hcheck⟩ | ⟨es,hc,-⟩
  · simpa only [stepProcess,hc] using h
  · obtain rfl := hcount hfailed
    rw [hhead] at hlinked
    have hgenuine := h.kept.genuine.append hnum hsigned hlinked
    simp only [stepProcess,hc]
    refine ⟨h.kept.append hgenuine ?_,?_⟩
    · intro d hd
      rw [Chained.unfinished_eq hp,unfinished,signing,hc] at hd
      rcases mem_append.mp hd with hd | hd
      · exact .inl (mem_append_left _ hd)
      · exact .inr (hcheck d (mem_toList.mp hd))
    · intro q hq
      obtain rfl := some.inj hq
      refine .stored es rfl ?_ ?_
      · obtain ⟨last,hlast⟩ : ∃ last, es.getLast? = some last := ⟨_,getLast?_eq_some_getLast hne⟩
        have hboth : (s.history++es).getLast? = some last := by rw [getLast?_append,hlast,some_or]
        rw [lastTag_of_getLast? hboth]
        simp [hlast]
      · intro _
        rw [length_append]
        exact hn
  · simpa only [stepProcess,hc] using h

theorem Chained.storeFailed (hcareful : ∀ c ∈ p.signing, c.removed = 0) :
    Chained ext (stepProcess ext guarded s p .storeFailed) := by
  rcases h.process p hp with ⟨hc,-⟩ |
    ⟨es,c,n,hc,hne,hnum,hn,hcount,hsigned,hhead,hlinked,hcheck⟩ | ⟨es,hc,-⟩
  · simpa only [stepProcess,hc] using h
  · simp only [stepProcess,hc]
    refine ⟨h.kept.of_unfinished ?_,?_⟩
    · intro d hd hremoved
      rw [Chained.unfinished_eq hp] at hd
      rcases mem_append.mp hd with hd | hd
      · exact mem_append_left _ hd
      · exact absurd (hcareful d hd) hremoved
    · intro q hq
      obtain rfl := some.inj hq
      exact .idle rfl hhead (by simp)
  · simpa only [stepProcess,hc] using h

theorem Chained.finish (written : Bool) :
    Chained ext (stepProcess ext guarded s p (.finish written)) := by
  rcases h.process p hp with ⟨hc,-⟩ | ⟨es,c,n,hc,-⟩ | ⟨es,hc,hhead,hnext⟩
  · simpa only [stepProcess,hc] using h
  · simpa only [stepProcess,hc] using h
  · have hunfinished : ∀ c ∈ s.unfinished, c.removed ≠ 0 → c ∈ p.compactions := by
      intro c hmem _
      rwa [Chained.unfinished_eq hp,unfinished,signing,hc,append_nil] at hmem
    have hgoing : Going ext s.history {p with critical := none} := .idle rfl hhead hnext
    have hkept : Kept ext s.rows s.history (p.compactions++[]) := by
      rw [append_nil]
      exact h.kept.of_unfinished hunfinished
    simp only [stepProcess,hc]
    split_ifs
    · refine ⟨hkept,?_⟩
      intro q hq
      obtain rfl := some.inj hq
      exact hgoing
    · refine ⟨hkept,?_⟩
      intro q hq
      obtain rfl := some.inj hq
      exact hgoing

theorem Chained.stepProcess (ha : Careful s a) : Chained ext (stepProcess ext guarded s p a) := by
  cases a with
  | reopen => exact h
  | begin drafts =>
    rw [EventLog.stepProcess]
    split_ifs with hfree
    · exact h.begin hp hfree.1 hfree.2 (fun _ hd => .inl hd) (by simp)
    · exact h
  | delete beforeSeq => exact h.delete hp beforeSeq
  | abandon i => exact h.abandon hp (ha p hp)
  | checkpoint i timestampUs => exact h.checkpoint hp i timestampUs
  | stored => exact h.stored hp (ha p hp)
  | storeFailed => exact h.storeFailed hp (ha p hp)
  | finish written => exact h.finish hp written
  | crash =>
    refine ⟨h.kept.of_unfinished ?_,by simp [EventLog.stepProcess]⟩
    intro c hc hremoved
    rw [Chained.unfinished_eq hp] at hc
    exact absurd (ha p hp c hc) hremoved

omit hp

theorem Chained.step (ha : Careful s a) : Chained ext (step ext guarded s a) := by
  cases hp : s.process with
  | some p =>
    simp only [EventLog.step,hp]
    exact h.stepProcess hp ha
  | none =>
    by_cases hreopen : a = .reopen
    · subst hreopen
      simp only [EventLog.step,hp]
      cases hopen : openInner ext guarded s.rows s.sidecar with
      | error err => exact h
      | ok opened =>
        have hkept := h.kept
        rw [Log.unfinished,hp] at hkept
        obtain ⟨hnext,hhead⟩ := Kept.recover hkept
        have hprocess := openInner_eq_ok hopen
        refine ⟨?_,?_⟩
        · rw [Chained.unfinished_eq rfl,hprocess]
          exact hkept
        · intro q hq
          obtain rfl := some.inj hq
          rw [hprocess]
          exact .idle rfl hhead fun _ => hnext
    · rw [step_closed hp hreopen]
      exact h

omit h

theorem chained_exec (h : Admissible (EventLog.step ext guarded) Careful Log.empty events) :
    Chained ext (exec (EventLog.step ext guarded) Log.empty events) :=
  invariant (fun _ _ ha hs => hs.step ha) chained_empty h
end
variable {unfinished : List Compaction}

theorem checkpoint_exempt {e : MemoryEvent} (h : 0 < e.beforeSeq) : e.eventType ∈ keptTypes := by
  cases e with
  | compactionCompleted beforeSeq removed => simp [MemoryEvent.eventType,keptTypes]
  | snapshotTaken seq tag => exact absurd h (lt_irrefl 0)
  | recorded kind body => exact absurd h (lt_irrefl 0)

theorem Kept.mem_of_boundary_le (h : Kept ext rows history unfinished)
    (hquiet : ∀ c ∈ unfinished, c.removed = 0)
    (hkept : kept.Sublist history) (hrows : rows = kept.map (rowFor ext))
    (he : e ∈ history) (hle : boundary kept ≤ e.seq) : e ∈ kept := by
  have hmem : ∀ x ∈ history, rowFor ext x ∈ rows → x ∈ kept := by
    intro x hx hrow
    rw [hrows] at hrow
    obtain ⟨y,hy,hyx⟩ := mem_map.mp hrow
    have hseq : y.seq = x.seq := congrArg EventRow.seq hyx
    rwa [← h.genuine.eq_of_seq_eq (hkept.subset hy) hx hseq]
  rcases h.covered e he with hrow | ⟨c,hc,hremoved,-⟩ | ⟨k,hk,-,hlt⟩
  · exact hmem e he hrow
  · exact absurd (hquiet c hc) hremoved
  · have hrow := h.exempt k hk (checkpoint_exempt (Nat.zero_lt_of_lt hlt))
    have hboundary := beforeSeq_le_boundary (hmem k hk hrow)
    omega

theorem Kept.verifies (h : Kept ext rows history unfinished)
    (hquiet : ∀ c ∈ unfinished, c.removed = 0) : verifyChain ext rows = .ok () := by
  obtain ⟨kept,hkept,hrows⟩ := sublist_map_iff.mp h.sublist
  have hread : readAll ext rows = .ok kept := by
    rw [hrows]
    exact readAll_map (h.genuine.rising.sublist hkept)
  refine verifyChain_eq_ok.mpr ⟨kept,hread,fun e he => h.genuine.signed e (hkept.subset he),?_⟩
  have hnodup : history.Nodup := h.genuine.rising.imp fun hlt heq => absurd hlt (by simp [heq])
  have hfilter : kept.filter (boundary kept ≤ ·.seq) = history.filter (boundary kept ≤ ·.seq) := by
    apply (hkept.filter _).eq_of_length_le
    apply ((hnodup.filter _).subperm _).length_le
    intro e he
    obtain ⟨he,hle⟩ := mem_filter.mp he
    exact mem_filter.mpr ⟨h.mem_of_boundary_le hquiet hkept hrows he (by simpa using hle),hle⟩
  rw [hfilter,h.genuine.filter_eq_drop]
  exact h.genuine.rooted_drop _

def Log.Quiet (s : Log) : Prop := ∀ c ∈ s.unfinished, c.removed = 0
  deriving Decidable

/-- Behind every careful run the untouched dataset verifies, in order and linked, and no number was
given twice. -/
theorem untouched_log_verifies {ext : Externals} {guarded : Bool} {events : List Event}
    (h : Admissible (step ext guarded) Careful Log.empty events) :
    let s := exec (step ext guarded) Log.empty events
    (s.Quiet → verifyChain ext s.rows = .ok ()) ∧
      s.rows.Pairwise (fun r q => r.seq < q.seq) ∧
      s.rows.Sublist (s.history.map (rowFor ext)) ∧
      Linked prevHmac hmac none s.history ∧
      (s.history.map (·.seq)).Nodup := by
  intro s
  have hkept : Kept ext s.rows s.history s.unfinished := (chained_exec h).kept
  refine ⟨hkept.verifies,?_,hkept.sublist,hkept.genuine.linked,?_⟩
  · have hrising : (s.history.map (rowFor ext)).Pairwise (fun r q => r.seq < q.seq) := by
      rw [pairwise_map]
      exact hkept.genuine.rising
    exact hrising.sublist hkept.sublist
  · rw [hkept.genuine.numbered]
    exact nodup_range

/-- Two appends, the second of which fails to store its row, and a third. -/
def failedBetween : List Event := .reopen::appended 1++[.begin [sampleDraft 2],.storeFailed]++
    appended 3

def unfinishedCompaction : List Event := .reopen::appended 1++appended 2++[.delete 1,.crash,.reopen]

/-- Both logs are reported as tampered with. -/
theorem untouched_log_rejected :
    verifyChain sampleExternals (exec (step sampleExternals false) Log.empty failedBetween).rows =
      .error (.gap 0 2) ∧ (exec (step sampleExternals false) Log.empty
      unfinishedCompaction).unfinished = [] ∧
    ∃ prevHmac, verifyChain sampleExternals
    (exec (step sampleExternals false) Log.empty unfinishedCompaction).rows =
      .error (.linkedRoot 1 prevHmac) := by
  refine ⟨by decide +kernel,by decide +kernel,?_⟩
  exact ⟨((exec (step sampleExternals false) Log.empty unfinishedCompaction).rows.head?.bind
    (·.prevHmac)),by decide +kernel⟩

def finishedCompaction : List Event :=
  .reopen::appended 1++appended 2++[.delete 5,.checkpoint 0 3,.stored,.finish true,.crash,.reopen]++
  appended 4

theorem untouched_log_verifies_compacted :
    verifyChain sampleExternals (exec (step sampleExternals false) Log.empty
    finishedCompaction).rows = .ok () ∧
    (exec (step sampleExternals false) Log.empty finishedCompaction).rows.map (·.seq) = [2,3] := by
  have hcareful : Admissible (step sampleExternals false) Careful Log.empty finishedCompaction := by
    decide +kernel
  have hquiet : (exec (step sampleExternals false) Log.empty finishedCompaction).Quiet := by
    decide +kernel
  exact ⟨(untouched_log_verifies hcareful).1 hquiet,by decide +kernel⟩
end Hirn.EventLog
