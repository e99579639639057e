import Hirn.EventLogRuns

/-! Rows that were changed without the key. Below the highest `before_seq` that the rows themselves
record any selection of events that were signed once is accepted; from there on the chain is exact. -/
namespace Hirn.EventLog
open Bytes HashChain Runs List Log
variable {ext : Externals} {e : EventEnvelope}

/-- The rows hold a `u64` and an `i64`. -/
structure EventRow.InRange (r : EventRow) : Prop where
  seq_lt : r.seq < 2^64
  le_timestamp : -2^63 ≤ r.timestampUs
  timestamp_lt : r.timestampUs < 2^63

def WithoutKey (ext : Externals) (history : List EventEnvelope) (changed : List EventRow) : Prop :=
  ∀ r ∈ changed, ∀ e, envelopeOf ext r = some e → EventEnvelope.Signed ext e →
    ∃ h ∈ history, signableBytes ext.bincode e = signableBytes ext.bincode h

/-- The number, the signed bytes and the tag are those of another event. -/
structure Carries (ext : Externals) (e h : EventEnvelope) : Prop where
  seq : e.seq = h.seq
  signed : signableBytes ext.bincode e = signableBytes ext.bincode h
  hmac : e.hmac = h.hmac

def lastEvent (ext : Externals) (rows : List EventRow) : Option EventEnvelope :=
  (rows.insertionSort (fun r q => r.seq ≤ q.seq)).getLast?.bind (envelopeOf ext)

/-- Every row carries an event of the log, and the rows from the boundary on are its end. -/
def ReadsAsKept (ext : Externals) (history : List EventEnvelope) (changed : List EventRow) : Prop :=
  ∃ es root, readAll ext changed = .ok es ∧ (∀ e ∈ es, ∃ h ∈ history, Carries ext e h) ∧
    (0 < boundary es → root = boundary es) ∧
    (boundary es = 0 → ∀ e ∈ es.head?, e.prevHmac = none) ∧
    List.Forall₂ (fun e h => Carries ext e h ∧ (h.seq ≠ root → e.prevHmac = h.prevHmac))
      (es.filter (boundary es ≤ ·.seq)) (history.drop root)

variable {rows : List EventRow} {es : List EventEnvelope}

theorem decodeRows_eq_ok : decodeRows ext rows = .ok es ↔
    List.Forall₂ (fun r e => envelopeOf ext r = some e) rows es := by
  induction rows generalizing es with
  | nil => simp [decodeRows]
  | cons r rows ih =>
    rw [decodeRows]
    cases he : envelopeOf ext r with
    | none =>
      constructor
      · exact fun h => absurd h (by simp)
      · intro h
        cases h with
        | cons hhead _ => exact absurd (he.symm.trans hhead) (by simp)
    | some e =>
      rw [Fallible.map_eq_ok]
      constructor
      · rintro ⟨fs,hfs,rfl⟩
        exact .cons he (ih.mp hfs)
      · intro h
        cases h with
        | cons hhead htail =>
          obtain rfl := Option.some.inj (he.symm.trans hhead)
          exact ⟨_,ih.mpr htail,rfl⟩

theorem envelopeOf_seq {r : EventRow} (h : envelopeOf ext r = some e) :
    e.seq = r.seq ∧ e.timestampUs = r.timestampUs := by
  obtain ⟨event,-,rfl⟩ := Option.map_eq_some_iff.mp h
  exact ⟨rfl,rfl⟩

theorem mem_of_readAll (h : readAll ext rows = .ok es) (he : e ∈ es) :
    ∃ r ∈ rows, envelopeOf ext r = some e := by
  obtain ⟨i,hi⟩ := mem_iff_getElem?.mp he
  have hforall := decodeRows_eq_ok.mp h
  obtain ⟨hlt,hval⟩ := List.getElem?_eq_some_iff.mp hi
  have hlt' := hforall.length_eq.symm ▸ hlt
  have hget := hforall.get hlt' hlt
  refine ⟨_,mem_insertionSort _ |>.mp (get_mem _ ⟨i,hlt'⟩),?_⟩
  rw [hget]
  exact congrArg some hval

theorem getLast?_of_decoded (h : List.Forall₂ (fun r e => envelopeOf ext r = some e) rows es) :
    rows.getLast?.bind (envelopeOf ext) = es.getLast? := by
  induction h with
  | nil => rfl
  | cons hhead htail ih =>
    cases htail with
    | nil => exact hhead
    | cons hnext hrest =>
      rw [getLast?_cons_cons,getLast?_cons_cons]
      exact ih

theorem lastEvent_of_readAll (h : readAll ext rows = .ok es) : lastEvent ext rows = es.getLast? :=
  getLast?_of_decoded (decodeRows_eq_ok.mp h)

theorem map_seq_of_decoded (h : List.Forall₂ (fun r e => envelopeOf ext r = some e) rows es) :
    es.map (·.seq) = rows.map (·.seq) := by
  induction h with
  | nil => rfl
  | cons hhead _ ih => rw [map_cons,map_cons,(envelopeOf_seq hhead).1,ih]

theorem readAll_sorted (h : readAll ext rows = .ok es) : es.Pairwise (fun e f => e.seq ≤ f.seq) := by
  have hseqs := map_seq_of_decoded (decodeRows_eq_ok.mp h)
  rw [← pairwise_map (f := fun e : EventEnvelope => e.seq) (R := (· ≤ ·)),hseqs,pairwise_map]
  exact pairwise_insertionSort _ _

theorem getLast?_filter (h : es.Pairwise (fun e f => e.seq ≤ f.seq)) {b : ℕ}
    (he : e ∈ es.filter (b ≤ ·.seq)) : (es.filter (b ≤ ·.seq)).getLast? = es.getLast? := by
  obtain ⟨hmem,hle⟩ := mem_filter.mp he
  rcases eq_nil_or_concat' es with rfl | ⟨ds,d,rfl⟩
  · cases hmem
  · have hlast : e.seq ≤ d.seq := by
      rcases mem_append.mp hmem with hmem | hmem
      · exact (pairwise_append.mp h).2.2 e hmem d (by simp)
      · rw [mem_singleton.mp hmem]
    have hd : b ≤ d.seq := (of_decide_eq_true hle).trans hlast
    rw [filter_append,filter_cons_of_pos (by simpa using hd),filter_nil,getLast?_concat,
      getLast?_concat]

section
variable {history es : List EventEnvelope}

theorem drop_eq_cons {i : ℕ} (hx : history[i]? = some x) : history.drop i = x::history.drop (i+1) := by
  obtain ⟨hlt,hval⟩ := List.getElem?_eq_some_iff.mp hx
  rw [drop_eq_getElem_cons hlt,hval]

theorem exists_of_forall₂_drop {R : EventEnvelope → EventEnvelope → Prop} {i : ℕ}
    (h : List.Forall₂ R (e::es) (history.drop i)) :
    ∃ g, history[i]? = some g ∧ R e g ∧ List.Forall₂ R es (history.drop (i+1)) := by
  cases hg : history[i]? with
  | none =>
    rw [drop_of_length_le (List.getElem?_eq_none_iff.mp hg)] at h
    cases h
  | some g =>
    rw [drop_eq_cons hg] at h
    cases h with
    | cons hhead htail => exact ⟨g,rfl,hhead,htail⟩

variable (h : Genuine ext history)
include h

/-- Behind an event, numbers without a gap and exact links leave only the rest of the log. -/
theorem Genuine.follows_iff (hx : x ∈ history) {root : ℕ}
    (hroot : root ≤ x.seq) (hcarries : ∀ e ∈ es, ∃ f ∈ history, Carries ext e f)
    (hlast : (x.seq::es.map (·.seq)).getLast? = some (history.length-1)) :
    Linked EventEnvelope.prevHmac EventEnvelope.hmac x.hmac es ∧
        (x.seq::es.map (·.seq)).IsChain (fun m n => n = m+1) ↔
      List.Forall₂ (fun e f => Carries ext e f ∧ (f.seq ≠ root → e.prevHmac = f.prevHmac)) es
        (history.drop (x.seq+1)) := by
  have hxget := h.getElem_seq hx
  induction es generalizing x with
  | nil =>
    have hdrop : history.drop (x.seq+1) = [] := by
      rw [map_nil,getLast?_singleton,Option.some.injEq] at hlast
      apply drop_of_length_le
      omega
    rw [hdrop]
    simp [Linked]
  | cons e es ih =>
    obtain ⟨f,hf,hef⟩ := hcarries e (by simp)
    rw [map_cons] at hlast
    rw [hef.seq] at hlast
    have hrest := fun hle => ih hf hle (fun d hd => hcarries d (by simp [hd])) hlast (h.getElem_seq hf)
    rw [Linked,map_cons,isChain_cons_cons,hef.seq,hef.hmac]
    constructor
    · rintro ⟨⟨hprev,hlinked⟩,hnext,hchain⟩
      have hfget := h.getElem_seq hf
      rw [hnext] at hfget
      have hfprev := h.linked.prev_succ hxget hfget
      rw [drop_eq_cons hfget,← hnext]
      exact .cons ⟨hef,fun _ => hprev.trans hfprev.symm⟩ ((hrest (by omega)).mp ⟨hlinked,hchain⟩)
    · intro hforall
      obtain ⟨g,hg,hhead,htail⟩ := exists_of_forall₂_drop hforall
      have hgseq := h.seq_getElem hg
      have hfg : f.seq = g.seq := hef.seq.symm.trans hhead.1.seq
      have hseq : f.seq = x.seq+1 := hfg.trans hgseq
      rw [← hseq] at htail
      obtain ⟨hlinked,hchain⟩ := (hrest (by omega)).mpr htail
      have hprev := hhead.2 (by omega)
      exact ⟨⟨hprev.trans (h.linked.prev_succ hxget hg),hlinked⟩,hseq,hchain⟩

theorem Genuine.length_of_getLast? (hx : history.getLast? = some x) : history.length = x.seq+1 := by
  obtain ⟨ds,rfl⟩ := getLast?_eq_some_iff.mp hx
  rw [length_append,h.seq_getElem (e := x) (i := ds.length) (by simp)]
  rfl

theorem Genuine.length_le_of_below (hlast : es.getLast? = history.getLast?) {b : ℕ}
    (hfilter : es.filter (b ≤ ·.seq) = []) : history.length ≤ b := by
  cases hx : history.getLast? with
  | none => simp [getLast?_eq_none_iff.mp hx]
  | some x =>
    rw [hx] at hlast
    have hbelow := filter_eq_nil_iff.mp hfilter x (mem_of_getLast? hlast)
    rw [h.length_of_getLast? hx]
    simpa using hbelow

/-- What the walk accepts from the boundary on. -/
theorem Genuine.rooted_iff (hcarries : ∀ e ∈ es, ∃ f ∈ history, Carries ext e f)
    (hsorted : es.Pairwise (fun e f => e.seq ≤ f.seq)) (hlast : es.getLast? = history.getLast?)
    (b : ℕ) : Rooted b (es.filter (b ≤ ·.seq)) ↔ ∃ root, (0 < b → root = b) ∧
      (b = 0 → ∀ e ∈ es.head?, e.prevHmac = none) ∧
      List.Forall₂ (fun e f => Carries ext e f ∧ (f.seq ≠ root → e.prevHmac = f.prevHmac))
        (es.filter (b ≤ ·.seq)) (history.drop root) := by
  cases hfilter : es.filter (b ≤ ·.seq) with
  | nil =>
    -- all rows lie below the boundary, so the whole log does
    have hlength := h.length_le_of_below hlast hfilter
    refine iff_of_true trivial ⟨b,fun _ => rfl,?_,?_⟩
    · rintro rfl e he
      have hnil : es = [] := by simpa using hfilter
      simp [hnil] at he
    · rw [drop_of_length_le hlength]
      exact .nil
  | cons e tail =>
    have hmem : e ∈ es.filter (b ≤ ·.seq) := by simp [hfilter]
    have htail : ∀ d ∈ tail, ∃ f ∈ history, Carries ext d f := by
      intro d hd
      have hd' : d ∈ es.filter (b ≤ ·.seq) := by simp [hfilter,hd]
      exact hcarries d (mem_of_mem_filter hd')
    obtain ⟨f,hf,hef⟩ := hcarries e (mem_of_mem_filter hmem)
    have hend : (f.seq::tail.map (·.seq)).getLast? = some (history.length-1) := by
      have hsame := getLast?_filter hsorted hmem
      rw [hfilter,hlast] at hsame
      obtain ⟨x,hx⟩ : ∃ x, history.getLast? = some x :=
        ⟨_,getLast?_eq_some_getLast (ne_nil_of_mem hf)⟩
      rw [← hef.seq,← map_cons (f := fun d : EventEnvelope => d.seq),getLast?_map,hsame,hx,
        h.length_of_getLast? hx]
      rfl
    have hfollows := h.follows_iff hf le_rfl htail hend
    have hhead : b = 0 → es.head? = some e := by
      rintro rfl
      have hes : es.filter (fun d => 0 ≤ d.seq) = es := by simp
      rw [← hes,hfilter]
      rfl
    rw [Rooted,hef.seq,hef.hmac,hfollows]
    constructor
    · rintro ⟨hroot,hforall⟩
      refine ⟨f.seq,?_,?_,?_⟩
      · intro hpos
        rwa [if_pos hpos] at hroot
      · intro hzero d hd
        rw [hhead hzero,Option.mem_some_iff] at hd
        rw [if_neg (by omega)] at hroot
        rwa [← hd]
      · rw [drop_eq_cons (h.getElem_seq hf)]
        exact .cons ⟨hef,fun hne => absurd rfl hne⟩ hforall
    · rintro ⟨root,hpos,hzero,hforall⟩
      obtain ⟨g,hg,hfirst,hrest⟩ := exists_of_forall₂_drop hforall
      obtain rfl : f.seq = root := (hef.seq.symm.trans hfirst.1.seq).trans (h.seq_getElem hg)
      refine ⟨?_,hrest⟩
      split_ifs with hb
      · exact hpos hb
      · exact hzero (by omega) e (hhead (by omega))

variable {changed : List EventRow}

theorem carries_of_signed (hkey : WithoutKey ext history changed)
    (hrange : ∀ r ∈ changed, r.InRange) (hhistory : ∀ f ∈ history, f.InRange)
    (hread : readAll ext changed = .ok es) :
    (∀ e ∈ es, EventEnvelope.Signed ext e) ↔ ∀ e ∈ es, ∃ f ∈ history, Carries ext e f := by
  constructor
  · intro hsigned e he
    obtain ⟨r,hr,hre⟩ := mem_of_readAll hread he
    obtain ⟨f,hf,hbytes⟩ := hkey r hr e hre (hsigned e he)
    have hinRange : e.InRange := by
      obtain ⟨hseq,htime⟩ := envelopeOf_seq hre
      have hr := hrange r hr
      exact ⟨hseq ▸ hr.seq_lt,htime ▸ hr.le_timestamp,htime ▸ hr.timestamp_lt⟩
    refine ⟨f,hf,((signableBytes_inj (hhistory f hf) hinRange).mp hbytes).1,hbytes,?_⟩
    rw [hsigned e he,h.signed f hf,hbytes]
  · intro hcarries e he
    obtain ⟨f,hf,hef⟩ := hcarries e he
    rw [EventEnvelope.Signed,hef.hmac,h.signed f hf,hef.signed]

omit h

/-- An honest dataset ends in the newest event. -/
theorem Kept.lastEvent {rows : List EventRow} {unfinished : List Compaction}
    (h : Kept ext rows history unfinished) (hquiet : ∀ c ∈ unfinished, c.removed = 0) :
    lastEvent ext rows = history.getLast? := by
  have hdone : Kept ext rows history [] := h.of_unfinished fun c hc hremoved =>
    absurd (hquiet c hc) hremoved
  obtain ⟨kept,hkept,hrows⟩ := sublist_map_iff.mp h.sublist
  have hrising := h.genuine.rising.sublist hkept
  have hread : readAll ext rows = .ok kept := by
    rw [hrows]
    exact readAll_map hrising
  rw [lastEvent_of_readAll hread]
  cases he : history.getLast? with
  | none =>
    rw [getLast?_eq_none_iff.mp he] at hkept
    rw [sublist_nil.mp hkept]
    rfl
  | some e =>
    have hrow : rowFor ext e ∈ rows := newestRow_mem (hdone.newestRow he)
    rw [hrows] at hrow
    obtain ⟨x,hx,hxe⟩ := mem_map.mp hrow
    have hxe : x = e := h.genuine.eq_of_seq_eq (hkept.subset hx) (mem_of_getLast? he)
      (congrArg EventRow.seq hxe)
    obtain ⟨ks,k,rfl⟩ : ∃ ks k, kept = ks++[k] := by
      rcases eq_nil_or_concat' kept with rfl | hconcat
      · cases hx
      · exact hconcat
    have hle : k.seq < history.length := h.genuine.seq_lt (hkept.subset (by simp))
    rw [h.genuine.length_of_getLast? he] at hle
    rcases mem_append.mp hx with hx | hx
    · have hlt := (pairwise_append.mp hrising).2.2 x hx k (by simp)
      rw [hxe] at hlt
      omega
    · rw [← hxe,mem_singleton.mp hx]
      exact getLast?_concat

/-- Behind every careful run, rows changed without the key that end in the same event are reported
unless they read as a part complete from its boundary on. -/
theorem log_tampering_detected_iff {ext : Externals} {guarded : Bool} {events : List Event}
    {changed : List EventRow} (h : Admissible (step ext guarded) Careful Log.empty events)
    (hquiet : (exec (step ext guarded) Log.empty events).Quiet)
    (hhistory : ∀ e ∈ (exec (step ext guarded) Log.empty events).history, e.InRange)
    (hrange : ∀ r ∈ changed, r.InRange)
    (hkey : WithoutKey ext (exec (step ext guarded) Log.empty events).history changed)
    (hlast : lastEvent ext changed = lastEvent ext (exec (step ext guarded) Log.empty events).rows) :
    (∃ err, verifyChain ext changed = .error err) ↔
      ¬ReadsAsKept ext (exec (step ext guarded) Log.empty events).history changed := by
  have hkept := (chained_exec h).kept
  have hgenuine := hkept.genuine
  rw [hkept.lastEvent hquiet] at hlast
  have hok : verifyChain ext changed = .ok () ↔
      ReadsAsKept ext (exec (step ext guarded) empty events).history changed := by
    rw [verifyChain_eq_ok]
    refine exists_congr fun es => ?_
    by_cases hread : readAll ext changed = .ok es
    · rw [lastEvent_of_readAll hread] at hlast
      rw [carries_of_signed hgenuine hkey hrange hhistory hread]
      constructor
      · rintro ⟨-,hcarries,hrooted⟩
        obtain ⟨root,hroot⟩ := (hgenuine.rooted_iff hcarries (readAll_sorted hread) hlast _).mp hrooted
        exact ⟨root,hread,hcarries,hroot⟩
      · rintro ⟨root,-,hcarries,hroot⟩
        exact ⟨hread,hcarries,(hgenuine.rooted_iff hcarries (readAll_sorted hread) hlast _).mpr
          ⟨root,hroot⟩⟩
    · simp [hread]
  rw [← hok]
  cases verifyChain ext changed with
  | error err => simp
  | ok u => simp

theorem withoutKey_of_subset (h : ∀ r ∈ changed, r ∈ history.map (rowFor ext)) :
    WithoutKey ext history changed := by
  intro r hr e he _
  obtain ⟨f,hf,rfl⟩ := mem_map.mp (h r hr)
  rw [envelopeOf_rowFor,Option.some.injEq] at he
  exact ⟨f,hf,by rw [he]⟩

def grantedThenCompacted : List Event :=
  .reopen::appended 1++[.begin [⟨2,"acme","shared","agent",.recorded .accessGranted ""⟩],.stored,
  .finish true,
    .delete 2,.checkpoint 0 3,.stored,.finish true]

/-- The audit event is deleted, and the log verifies. -/
theorem deleted_island_verifies :
    (exec (step sampleExternals false) Log.empty grantedThenCompacted).rows.map (·.eventType) =
      ["access_granted","compaction_completed"] ∧
    verifyChain sampleExternals ((exec (step sampleExternals false) Log.empty
    grantedThenCompacted).rows.drop 1) =
      .ok () ∧
    lastEvent sampleExternals ((exec (step sampleExternals false) Log.empty
    grantedThenCompacted).rows.drop 1) =
      lastEvent sampleExternals (exec (step sampleExternals false) Log.empty
      grantedThenCompacted).rows := by
  decide +kernel

def threeAppends : List Event := .reopen::appended 1++appended 2++appended 3

/-- Without a compaction the second of three events cannot go. -/
theorem log_tampering_detected_second : (∃ err, verifyChain sampleExternals
      ((exec (step sampleExternals false) Log.empty threeAppends).rows.eraseIdx 1) = .error err) ∧
    ¬ReadsAsKept sampleExternals (exec (step sampleExternals false) Log.empty threeAppends).history
      ((exec (step sampleExternals false) Log.empty threeAppends).rows.eraseIdx 1) := by
  have hdetected : ∃ err, verifyChain sampleExternals
      ((exec (step sampleExternals false) empty threeAppends).rows.eraseIdx 1) = .error err :=
    ⟨.gap 0 2,by decide +kernel⟩
  have hrows : ∀ r ∈ (exec (step sampleExternals false) empty threeAppends).rows.eraseIdx 1,
      r ∈ (exec (step sampleExternals false) empty threeAppends).history.map
      (rowFor sampleExternals) := by
    decide +kernel
  have hhistory : ∀ e ∈ (exec (step sampleExternals false) empty threeAppends).history,
      e.seq < 2^64 ∧ -2^63 ≤ e.timestampUs ∧ e.timestampUs < 2^63 := by decide +kernel
  have hrange : ∀ r ∈ (exec (step sampleExternals false) empty threeAppends).rows.eraseIdx 1,
      r.seq < 2^64 ∧ -2^63 ≤ r.timestampUs ∧ r.timestampUs < 2^63 := by decide +kernel
  have hcareful : Admissible (step sampleExternals false) Careful empty threeAppends := by
    decide +kernel
  refine ⟨hdetected,(log_tampering_detected_iff hcareful (by decide +kernel) ?_ ?_
    (withoutKey_of_subset hrows) (by decide +kernel)).mp hdetected⟩
  · intro e he
    obtain ⟨hseq,hle,hlt⟩ := hhistory e he
    exact ⟨hseq,hle,hlt⟩
  · intro r hr
    obtain ⟨hseq,hle,hlt⟩ := hrange r hr
    exact ⟨hseq,hle,hlt⟩
end
end Hirn.EventLog
