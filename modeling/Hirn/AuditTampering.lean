import Hirn.AuditRuns

/-! What can be done to the dataset of the audit trail without the key and without the verification
noticing it: the trail may be cut at its end, its rows put in another order and its last tag spelled
in upper case. -/
namespace Hirn.Audit
open Bytes HashChain Runs List AuditRow
variable {α : Type} {ext : Externals α} {key : List UInt8}
  {r g : AuditRow} {log rows seg front tail changed : List AuditRow}

variable {e : AuditEntry α}

section

def signedBytes (r : AuditRow) : List UInt8 :=
  framed [toLeBytes 8 r.seq,bytes r.id,toLeBytesInt 8 r.timestampMs,bytes (r.actor.getD ""),
    bytes (r.prevHmac.getD ""),r.actionJson]

theorem content_eq (e : AuditEntry α) : content ext e = signedBytes (toRow ext e) := rfl

/-- The rows of a history: signed, linked, in the order of their numbers. -/
structure Genuine (ext : Externals α) (key : List UInt8) (log : List AuditRow) : Prop where
  entry : ∀ g ∈ log, ∃ e : AuditEntry α, g = toRow ext e
  signed : ∀ g ∈ log, g.hmac = some (hexEncode (ext.computeHmac key (signedBytes g)))
  linked : Linked AuditRow.prevHmac AuditRow.hmac none log
  rising : log.Pairwise (fun g h => g.seq < h.seq)

theorem linked_map : Linked prevHmac hmac t (es.map (toRow ext)) ↔
      Linked AuditEntry.prevHmac AuditEntry.hmac t es := by
  induction es generalizing t with
  | nil => rfl
  | cons e es ih =>
    rw [map_cons,Linked,ih]
    rfl

theorem genuine_exec (events : List (Event α)) :
    Genuine ext key (exec (step ext key) Trail.empty events).rows := by
  obtain ⟨es,h⟩ := @intact_exec α ext key (fun _ => True) events fun _ _ _ _ => trivial
  refine ⟨?_,?_,?_,?_⟩
  · intro g hg
    rw [h.rows] at hg
    obtain ⟨e,-,rfl⟩ := mem_map.mp hg
    exact ⟨e,rfl⟩
  · intro g hg
    rw [h.rows] at hg
    obtain ⟨e,he,rfl⟩ := mem_map.mp hg
    exact h.signed e he
  · rw [h.rows,linked_map]
    exact h.linked
  · rw [h.rows,pairwise_map]
    exact h.rising

/-- The numbers are a `u64` and an `i64`. -/
structure AuditRow.InRange (r : AuditRow) : Prop where
  seq_lt : r.seq < 2^64
  le_timestamp : -2^63 ≤ r.timestampMs
  timestamp_lt : r.timestampMs < 2^63

def SameFields (r g : AuditRow) : Prop := {r with hmac := g.hmac} = g

theorem SameFields.seq (h : SameFields r g) : r.seq = g.seq := by
  rw [← show _ = g from h]

theorem SameFields.prevHmac (h : SameFields r g) : r.prevHmac = g.prevHmac := by
  rw [← show _ = g from h]

theorem SameFields.signedBytes (h : SameFields r g) : signedBytes r = signedBytes g := by
  rw [← show _ = g from h]
  rfl

theorem length_actor (actor : Option AgentId) :
    (bytes ((actor.map (·.text)).getD "")).length < 256^4 := by
  cases actor with
  | none => decide
  | some a =>
    have hvalid := a.valid
    simp only [validAgentId,decide_eq_true_eq] at hvalid
    exact lt_of_le_of_lt hvalid.2.1 (by norm_num)

theorem actor_inj {a b : Option AgentId} (h : (a.map (·.text)).getD "" = (b.map (·.text)).getD "") :
    a.map (·.text) = b.map (·.text) := by
  have hne : ∀ c : AgentId, c.text ≠ "" := by
    intro c
    have hvalid := c.valid
    simp only [validAgentId,decide_eq_true_eq] at hvalid
    exact hvalid.1
  cases a with
  | none =>
    cases b with
    | none => rfl
    | some b => exact absurd h.symm (hne b)
  | some a =>
    cases b with
    | none => exact absurd h (hne a)
    | some b => exact congrArg some h

/-- The signed bytes determine all fields, up to an absent and an empty tag. -/
theorem fields_of_signedBytes {f : AuditEntry α}
    (he : (toRow ext e).InRange) (hf : (toRow ext f).InRange)
    (hprev : (bytes (e.prevHmac.getD "")).length < 256^4)
    (hprev' : (bytes (f.prevHmac.getD "")).length < 256^4)
    (h : signedBytes (toRow ext e) = signedBytes (toRow ext f)) :
    e.prevHmac.getD "" = f.prevHmac.getD "" ∧
      (e.prevHmac = f.prevHmac → SameFields (toRow ext e) (toRow ext f)) := by
  have hinit : ∀ d : AuditEntry α, (bytes (d.prevHmac.getD "")).length < 256^4 →
      ∀ x ∈ [toLeBytes 8 d.seq,bytes (ext.idText d.id),toLeBytesInt 8 d.timestamp,
        bytes ((d.actor.map (·.text)).getD ""),bytes (d.prevHmac.getD "")], x.length < 256^4 := by
    intro d hd x hx
    simp only [mem_cons,not_mem_nil,or_false] at hx
    rcases hx with rfl | rfl | rfl | rfl | rfl
    · simp
    · exact ext.length_idText d.id
    · simp
    · exact length_actor d.actor
    · exact hd
  obtain ⟨hfields,hjson⟩ := framed_inj (hinit e hprev) (hinit f hprev') rfl h
  simp only [List.cons.injEq,and_true] at hfields
  obtain ⟨hseq,hid,htime,hactor,htag⟩ := hfields
  refine ⟨bytes_injective htag,?_⟩
  intro hsame
  have hseq' := toLeBytes_inj (lt_of_lt_of_eq he.seq_lt (by norm_num))
    (lt_of_lt_of_eq hf.seq_lt (by norm_num)) hseq
  have htime' : e.timestamp = f.timestamp := by
    apply toLeBytesInt_inj _ htime
    have h₁ : -2^63 ≤ e.timestamp := he.le_timestamp
    have h₂ : e.timestamp < 2^63 := he.timestamp_lt
    have h₃ : -2^63 ≤ f.timestamp := hf.le_timestamp
    have h₄ : f.timestamp < 2^63 := hf.timestamp_lt
    omega
  simp only [SameFields,toRow,mk.injEq]
  exact ⟨bytes_injective hid,hseq',htime',actor_inj (bytes_injective hactor),hjson,trivial,hsame⟩

theorem seq_of_signedBytes (hr : r.InRange) (hg : g.InRange) (h : signedBytes r = signedBytes g) :
    r.seq = g.seq := by
  simp only [signedBytes,framed,flatMap_cons,append_assoc] at h
  have hrest := (append_inj h (by simp)).2
  have hseq := (append_inj hrest (by simp)).1
  exact toLeBytes_inj (lt_of_lt_of_eq hr.seq_lt (by norm_num))
    (lt_of_lt_of_eq hg.seq_lt (by norm_num)) hseq

theorem length_of_tag {t : String} {content : List UInt8}
    (h : hexDecode t = some (ext.computeHmac key content)) : (bytes t).length = 64 := by
  rw [length_of_hexDecode h,ext.length_computeHmac]

variable (h : Genuine ext key log)
include h

theorem Genuine.nodup : log.Nodup :=
  h.rising.imp fun hlt heq => absurd (congrArg seq heq) hlt.ne

theorem Genuine.eq_of_seq (hg : g ∈ log) (hd : d ∈ log) (hseq : g.seq = d.seq) : g = d := by
  have hnodup : (log.map seq).Nodup := by
    rw [List.Nodup,pairwise_map]
    exact h.rising.imp ne_of_lt
  exact inj_on_of_nodup_map hnodup hg hd hseq

theorem Genuine.prev (hg : g ∈ log) :
    g.prevHmac = none ∨ ∃ d ∈ log, g.prevHmac =
    some (hexEncode (ext.computeHmac key (signedBytes d))) := by
  obtain ⟨j,hj⟩ := mem_iff_getElem?.mp hg
  cases j with
  | zero => exact .inl (h.linked.prev_zero hj)
  | succ j =>
    obtain ⟨hlt,-⟩ := List.getElem?_eq_some_iff.mp hj
    have hd : log[j]? = some log[j] := getElem?_eq_getElem (by omega)
    refine .inr ⟨log[j],getElem_mem _,?_⟩
    rw [h.linked.prev_succ hd hj,h.signed _ (getElem_mem _)]
end

/-- The rows are the same but for the case of the last tag. -/
def Respelled : List AuditRow → List AuditRow → Prop
  | [], [] => True
  | r::rows, g::log =>
    SameFields r g ∧ r.hmac.bind hexDecode = g.hmac.bind hexDecode ∧ (rows ≠ [] → r.hmac = g.hmac) ∧
      Respelled rows log
  | _, _ => False

section
variable (ext : Externals α)

/-- What was changed without the key carries no valid tag but those of the log. -/
def WithoutKey (key : List UInt8) (log changed : List AuditRow) : Prop :=
  ∀ r ∈ changed, ∀ e : AuditEntry α, fromRow ext r = some e → auditEntryTagValid ext key e = true →
    ∃ g ∈ log, content ext e = signedBytes g

def NoCollision (key : List UInt8) (log : List AuditRow) : Prop :=
  ∀ g ∈ log, ∀ h ∈ log, ext.computeHmac key (signedBytes g) = ext.computeHmac key (signedBytes h) →
    signedBytes g = signedBytes h

/-- The changed rows are read as an initial segment of the log without a gap. -/
def ReadsAsSegment (log changed : List AuditRow) : Prop :=
  ∃ read, auditLog ext changed = some read ∧ ∃ seg, seg <+: log ∧
    seg.IsChain (fun r q => q.seq = r.seq+1) ∧ Respelled (read.map (toRow ext)) seg
end

theorem Respelled.nil_left (h : Respelled [] log) : log = [] := by
  cases log with
  | nil => rfl
  | cons g log => exact h.elim

theorem Respelled.map_seq (h : Respelled rows seg) : rows.map seq = seg.map seq := by
  induction rows generalizing seg with
  | nil => rw [h.nil_left]
  | cons r rows ih =>
    cases seg with
    | nil => exact h.elim
    | cons g seg =>
      obtain ⟨hfields,-,-,hrest⟩ := h
      have hseq : r.seq = g.seq := hfields.seq
      rw [map_cons,map_cons,hseq,ih hrest]

theorem Respelled.map_seq_read {read : List (AuditEntry α)}
    (h : Respelled (read.map (toRow ext)) seg) : read.map AuditEntry.seq = seg.map seq := by
  rw [← h.map_seq,map_map]
  rfl

theorem Respelled.linked (h : Respelled rows seg)
    (hseg : Linked prevHmac hmac t seg) : Linked prevHmac hmac t rows := by
  induction rows generalizing seg t with
  | nil => trivial
  | cons r rows ih =>
    cases seg with
    | nil => exact h.elim
    | cons g seg =>
      obtain ⟨hfields,-,hhmac,hrest⟩ := h
      have hprev : r.prevHmac = g.prevHmac := hfields.prevHmac
      refine ⟨hprev.trans hseg.1,?_⟩
      cases rows with
      | nil => trivial
      | cons r' rows =>
        apply ih hrest
        rw [hhmac (by simp)]
        exact hseg.2

theorem Respelled.exists_mem (h : Respelled rows seg) (hr : r ∈ rows) :
    ∃ g ∈ seg, SameFields r g ∧ r.hmac.bind hexDecode = g.hmac.bind hexDecode := by
  induction rows generalizing seg with
  | nil => cases hr
  | cons d rows ih =>
    cases seg with
    | nil => exact h.elim
    | cons g seg =>
      obtain ⟨hfields,hdecode,-,hrest⟩ := h
      rcases mem_cons.mp hr with rfl | hr
      · exact ⟨g,by simp,hfields,hdecode⟩
      · obtain ⟨g',hg',hsame⟩ := ih hrest hr
        exact ⟨g',by simp [hg'],hsame⟩

theorem walk_of_respelled (hlog : Genuine ext key log) (hseg : seg <+: log)
    (hchain : seg.IsChain (fun r q => q.seq = r.seq+1)) {read : List (AuditEntry α)}
    (h : Respelled (read.map (toRow ext)) seg) : walk ext key none none read = .ok () := by
  rw [walk_eq_ok,Option.toList_none,nil_append]
  refine ⟨?_,?_,?_⟩
  · intro e he
    obtain ⟨g,hg,hfields,hdecode⟩ := h.exists_mem (mem_map_of_mem he)
    have hdecode' : e.hmac.bind hexDecode = g.hmac.bind hexDecode := hdecode
    rw [auditEntryTagValid,hdecode',hlog.signed g (hseg.subset hg),Option.bind_some,
      hexDecode_hexEncode,content_eq,hfields.signedBytes,beq_self_eq_true]
  · obtain ⟨rest,rfl⟩ := hseg
    exact linked_map.mp (h.linked (linked_append.mp hlog.linked).1)
  · rw [h.map_seq_read,isChain_map]
    exact hchain

/-- The tag that the next entry names belongs to the last row before it. -/
def EndsIn (ext : Externals α) (key : List UInt8) (front : List AuditRow) (t : Option String) : Prop :=
  match front.getLast? with
  | none => t = none
  | some g => t.bind hexDecode = some (ext.computeHmac key (signedBytes g))

theorem EndsIn.length {t : Option String} (ht : EndsIn ext key front t) :
    t = none ∧ front = [] ∨ ∃ ds d tag, front = ds++[d] ∧ t = some tag ∧ (bytes tag).length = 64 ∧
      hexDecode tag = some (ext.computeHmac key (signedBytes d)) := by
  rcases eq_nil_or_concat' front with rfl | ⟨ds,d,rfl⟩
  · exact .inl ⟨ht,rfl⟩
  · simp only [EndsIn,getLast?_concat] at ht
    obtain ⟨tag,rfl,hdecode⟩ := Option.bind_eq_some_iff.mp ht
    exact .inr ⟨ds,d,tag,rfl,rfl,length_of_tag hdecode,hdecode⟩

/-- A signed entry that names the last tag of the front is the row behind it. -/
theorem next_row (hlog : Genuine ext key (front++tail))
    (hrange : ∀ g ∈ front++tail, g.InRange) (hcollision : NoCollision ext key (front++tail))
    (he : (toRow ext e).InRange) (ht : EndsIn ext key front e.prevHmac)
    (hg : g ∈ front++tail) (hcontent : content ext e = signedBytes g) :
    (∃ rest, tail = g::rest) ∧ SameFields (toRow ext e) g ∧ e.prevHmac = lastTag hmac none front := by
  obtain ⟨f,rfl⟩ := hlog.entry g hg
  have hlength : ∀ tag : Option String, (tag = none ∨ ∃ x, tag = some x ∧ (bytes x).length = 64) →
      (bytes (tag.getD "")).length < 256^4 := by
    rintro tag (rfl | ⟨x,rfl,hx⟩)
    · decide
    · rw [Option.getD_some,hx]
      norm_num
  have hfprev : f.prevHmac = none ∨ ∃ x, f.prevHmac = some x ∧ (bytes x).length = 64 := by
    rcases hlog.prev hg with hnone | ⟨d,-,hd⟩
    · exact .inl hnone
    · exact .inr ⟨_,hd,length_of_tag (hexDecode_hexEncode _)⟩
  rcases ht.length with ⟨hnone,rfl⟩ | ⟨ds,d,tag,rfl,htag,h64,hdecode⟩
  · obtain ⟨hgetD,hfields⟩ := fields_of_signedBytes he (hrange _ hg) (hlength _ (.inl hnone))
      (hlength _ hfprev) hcontent
    have hfnone : f.prevHmac = none := by
      rcases hfprev with hfprev | ⟨x,hx,hx64⟩
      · exact hfprev
      · rw [hnone,hx,Option.getD_some] at hgetD
        rw [← hgetD] at hx64
        cases hx64
    have hfirst := hlog.linked.first (fun x hx => by simp [hlog.signed x hx]) hg hfnone
    refine ⟨?_,hfields (hnone.trans hfnone.symm),hnone⟩
    cases tail with
    | nil => cases hfirst
    | cons x rest => exact ⟨rest,by rw [Option.some.inj hfirst]⟩
  · obtain ⟨hgetD,hfields⟩ := fields_of_signedBytes he (hrange _ hg)
      (hlength _ (.inr ⟨tag,htag,h64⟩)) (hlength _ hfprev) hcontent
    have hfprev' : f.prevHmac = some tag := by
      rcases hfprev with hfprev | ⟨x,hx,-⟩
      · rw [htag,hfprev,Option.getD_some] at hgetD
        rw [hgetD] at h64
        cases h64
      · rw [htag,hx,Option.getD_some,Option.getD_some] at hgetD
        rw [hx,hgetD]
    have hd : (ds++[d]++tail)[ds.length]? = some d := by simp
    have hown : ∀ x ∈ ds++[d]++tail, x.hmac = some tag → x = d := by
      intro x hx hxtag
      rw [hlog.signed x hx] at hxtag
      rw [← Option.some.inj hxtag,hexDecode_hexEncode,Option.some.injEq] at hdecode
      have hdmem : d ∈ ds++[d]++tail := by simp
      have hsame := hcollision x hx d hdmem hdecode
      exact hlog.eq_of_seq hx hdmem (seq_of_signedBytes (hrange x hx) (hrange d hdmem) hsame)
    have hnext := hlog.linked.next hlog.nodup hd hown (by simp) hg hfprev'
    have hlast : f.prevHmac = d.hmac := hlog.linked.prev_succ hd hnext
    rw [getElem?_append_right (by simp),length_append,length_singleton,Nat.sub_self] at hnext
    refine ⟨?_,hfields (htag.trans hfprev'.symm),?_⟩
    · cases tail with
      | nil => cases hnext
      | cons x rest => exact ⟨rest,by rw [Option.some.inj hnext]⟩
    · rw [lastTag_concat,← hlast,hfprev',htag]

/-- Entries with valid tags, linked from a point of the log on, are its rows from there. -/
theorem respelled_of_linked (hlog : Genuine ext key (front++tail))
    (hrange : ∀ g ∈ front++tail, g.InRange) (hcollision : NoCollision ext key (front++tail))
    {read : List (AuditEntry α)} (hread : ∀ e ∈ read, (toRow ext e).InRange)
    (hvalid : ∀ e ∈ read, auditEntryTagValid ext key e)
    (hkey : ∀ e ∈ read, ∃ g ∈ front++tail, content ext e = signedBytes g) {t : Option String}
    (ht : EndsIn ext key front t) (hlinked : Linked AuditEntry.prevHmac AuditEntry.hmac t read) :
    ∃ seg, seg <+: tail ∧ Respelled (read.map (toRow ext)) seg ∧
      (read ≠ [] → t = lastTag hmac none front) := by
  induction read generalizing front tail t with
  | nil => exact ⟨[], nil_prefix,trivial,by simp⟩
  | cons e read ih =>
    obtain ⟨g,hg,hcontent⟩ := hkey e (by simp)
    obtain ⟨rfl,hrest⟩ := hlinked
    obtain ⟨⟨rest,rfl⟩,hfields,hlast⟩ := next_row hlog hrange hcollision (hread e (by simp)) ht
      hg hcontent
    have hdecode : e.hmac.bind hexDecode = some (ext.computeHmac key (signedBytes g)) := by
      rw [← hcontent]
      exact beq_iff_eq.mp (hvalid e (by simp))
    have hmove : front++g::rest = front++[g]++rest := by simp
    rw [hmove] at hlog hrange hcollision hkey
    have hends : EndsIn ext key (front++[g]) e.hmac := by
      rw [EndsIn,getLast?_concat]
      exact hdecode
    obtain ⟨seg,hseg,hrespelled,hliteral⟩ :=
      ih hlog hrange hcollision (fun x hx => hread x (by simp [hx]))
      (fun x hx => hvalid x (by simp [hx])) (fun x hx => hkey x (by simp [hx])) hends hrest
    refine ⟨g::seg,cons_prefix_cons.mpr ⟨rfl,hseg⟩,⟨hfields,?_,?_,hrespelled⟩,fun _ => hlast⟩
    · rw [hlog.signed g (by simp),Option.bind_some,hexDecode_hexEncode]
      exact hdecode
    · intro hne
      rw [lastTag_concat] at hliteral
      exact hliteral (by simpa using hne)

theorem mem_auditLog {read : List (AuditEntry α)} (h : auditLog ext changed = some read)
    (he : e ∈ read) : ∃ r ∈ changed, fromRow ext r = some e := by
  rw [auditLog,Option.map_eq_some_iff] at h
  obtain ⟨es,hes,rfl⟩ := h
  rw [mem_insertionSort] at he
  have hforall := fromRows_eq_some.mp hes
  clear hes
  induction hforall with
  | nil => cases he
  | @cons r d rows es hhead _ ih =>
    rcases mem_cons.mp he with rfl | he
    · exact ⟨r,by simp,hhead⟩
    · obtain ⟨q,hq,hqe⟩ := ih he
      exact ⟨q,by simp [hq],hqe⟩

theorem inRange_fromRow (hr : r.seq < 2^64) (h : fromRow ext r = some e) : (toRow ext e).InRange := by
  simp only [fromRow,Option.bind_eq_bind,Option.bind_eq_some_iff,Option.pure_def,
    Option.some.injEq] at h
  obtain ⟨id,-,actor,-,action,-,rfl⟩ := h
  have hmillis : 0 ≤ fromMillis r.timestampMs ∧ fromMillis r.timestampMs ≤ maxUtcMs := by
    rw [fromMillis]
    split_ifs with hin
    · exact hin
    · rw [maxUtcMs]
      omega
  rw [maxUtcMs] at hmillis
  refine ⟨hr,?_,?_⟩
  · show -2^63 ≤ fromMillis r.timestampMs
    omega
  · show fromMillis r.timestampMs < 2^63
    omega

theorem verify_error_iff : (∃ err, verifyAuditChain ext (some key) changed = .error err) ↔
      ¬∃ read, auditLog ext changed = some read ∧ walk ext key none none read = .ok () := by
  rw [verifyAuditChain]
  cases hread : auditLog ext changed with
  | none => simp
  | some read =>
    cases hwalk : walk ext key none none read with
    | error e => simp [hwalk]
    | ok u => simp [hwalk]

/-- Tampering is noticed exactly if the rows do not read as an initial segment of the trail. -/
theorem tampering_detected_iff {α : Type} {ext : Externals α} {key : List UInt8}
    (events : List (Event α)) {changed : List AuditRow}
    (hrange : ∀ g ∈ (exec (step ext key) Trail.empty events).rows, g.InRange)
    (hchanged : ∀ r ∈ changed, r.seq < 2^64)
    (hcollision : NoCollision ext key (exec (step ext key) Trail.empty events).rows)
    (hkey : WithoutKey ext key (exec (step ext key) Trail.empty events).rows changed) :
    (∃ err, verifyAuditChain ext (some key) changed = .error err) ↔
      ¬ReadsAsSegment ext (exec (step ext key) Trail.empty events).rows changed := by
  have hlog := @genuine_exec α ext key events
  rw [verify_error_iff,not_iff_not]
  constructor
  · rintro ⟨read,hread,hwalk⟩
    obtain ⟨hvalid,hlinked,hchain⟩ := walk_eq_ok.mp hwalk
    have hfrom : ∀ e ∈ read, ∃ r ∈ changed, fromRow ext r = some e := fun e he => mem_auditLog hread he
    obtain ⟨seg,hseg,hrespelled,-⟩ := @respelled_of_linked α ext key [] _ hlog hrange hcollision
      read (fun e he => by
        obtain ⟨r,hr,hre⟩ := hfrom e he
        exact inRange_fromRow (hchanged r hr) hre)
      hvalid
      (fun e he => by
        obtain ⟨r,hr,hre⟩ := hfrom e he
        exact hkey r hr e hre (hvalid e he))
      none rfl hlinked
    refine ⟨read,hread,seg,hseg,?_,hrespelled⟩
    rw [Option.toList_none,nil_append,hrespelled.map_seq_read,isChain_map] at hchain
    exact hchain
  · rintro ⟨read,hread,seg,hseg,hchain,hrespelled⟩
    exact ⟨read,hread,walk_of_respelled hlog hseg hchain hrespelled⟩

theorem withoutKey_of_subset (hevents : ∀ a ∈ events, Drafted (Readable ext) a)
    (hsubset : changed ⊆ (exec (step ext key) Trail.empty events).rows) :
    WithoutKey ext key (exec (step ext key) Trail.empty events).rows changed := by
  intro r hr e hre _
  obtain ⟨es,h⟩ := @intact_exec α ext key (Readable ext) events hevents
  have hmem := hsubset hr
  refine ⟨r,hmem,?_⟩
  rw [h.rows] at hmem
  obtain ⟨f,hf,rfl⟩ := mem_map.mp hmem
  obtain ⟨e',he',-,-,-,hcontent⟩ := fromRow_toRow (h.drafts f hf)
  rw [← Option.some.inj (he'.symm.trans hre),hcontent]
  rfl

def twoAppends : List (Event (List UInt8)) :=
  [.begin (sampleDraft 1),.stored,.returned,.begin (sampleDraft 2),.stored,.returned]

def sampleLog : List AuditRow := (exec (step sampleExternals [7]) Trail.empty twoAppends).rows

/-- Deleting the first entry is noticed, so what is left is no initial segment. -/
theorem tampering_detected_first : (∃ err, verifyAuditChain sampleExternals (some [7])
    sampleLog.tail = .error err) ∧
      ¬ReadsAsSegment sampleExternals (exec (step sampleExternals [7]) Trail.empty twoAppends).rows
        sampleLog.tail := by
  have hreadable : ∀ a ∈ twoAppends, Drafted (Readable sampleExternals) a := by
    intro a ha d hd
    subst hd
    simp only [twoAppends,mem_cons,Event.begin.injEq,reduceCtorEq,not_mem_nil,or_false,
      false_or] at ha
    rcases ha with rfl | rfl <;> exact sampleDraft_readable (by norm_num)
  have hnumbers : ∀ g ∈ sampleLog, g.seq < 2^64 ∧ -2^63 ≤ g.timestampMs ∧ g.timestampMs < 2^63 := by
    decide +kernel
  have hdetected : ∃ err, verifyAuditChain sampleExternals (some [7]) sampleLog.tail = .error err :=
    ⟨.unlinked 1 none (sampleLog.head?.bind (·.hmac)),by decide +kernel⟩
  refine ⟨hdetected,(tampering_detected_iff twoAppends ?_ ?_ ?_ ?_).mp hdetected⟩
  · intro g hg
    obtain ⟨h₁,h₂,h₃⟩ := hnumbers g hg
    exact ⟨h₁,h₂,h₃⟩
  · intro g hg
    exact (hnumbers g (mem_of_mem_tail hg)).1
  · unfold NoCollision
    decide +kernel
  · exact withoutKey_of_subset hreadable (tail_subset _)

/-- The last entry is gone, the others are shuffled: the verification is content. -/
theorem truncation_verifies : sampleLog.length = 2 ∧
    verifyAuditChain sampleExternals (some [7]) (sampleLog.take 1) = .ok (.verified 1) ∧
    verifyAuditChain sampleExternals (some [7]) sampleLog.reverse = .ok (.verified 2) := by
  decide +kernel
end Hirn.Audit
