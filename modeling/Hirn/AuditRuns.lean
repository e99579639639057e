import Hirn.AuditTrail
import Hirn.Fallible
import Hirn.HashChain

/-! What every history of appends, failures and restarts leaves in the dataset, and when the
untouched dataset verifies. -/
namespace Hirn.Audit
open Bytes HashChain Runs List Trail AuditEntry Option
variable {α : Type} {ext : Externals α} {key : List UInt8} {rows : List AuditRow}
variable {es : List (AuditEntry α)} {e : AuditEntry α}

def Readable (ext : Externals α) (d : Draft α) : Prop :=
  (0 ≤ d.timestamp ∧ d.timestamp ≤ maxUtcMs) ∧
    ∃ action, ext.fromJson (ext.toJson d.action) = some action ∧
    ext.toJson action = ext.toJson d.action

theorem AgentId.new_text (a : AgentId) : AgentId.new a.text = some a := by
  rw [AgentId.new,dif_pos a.valid]

theorem readActor_text (actor : Option AgentId) : readActor (actor.map (·.text)) = some actor := by
  cases actor with
  | none => rfl
  | some a => rw [map_some,readActor,AgentId.new_text,map_some]

theorem fromRow_toRow (h : Readable ext e.toDraft) :
    ∃ e', fromRow ext (toRow ext e) = some e' ∧ e'.seq = e.seq ∧ e'.hmac = e.hmac ∧
      e'.prevHmac = e.prevHmac ∧ content ext e' = content ext e := by
  obtain ⟨htime,action,hread,hjson⟩ := h
  have hmillis : fromMillis e.timestamp = e.timestamp := if_pos htime
  refine ⟨⟨⟨e.id,fromMillis e.timestamp,e.actor,action⟩,e.seq,e.hmac,e.prevHmac⟩,?_,rfl,rfl,rfl,?_⟩
  · simp [fromRow,toRow,ext.parseId_idText,hread,readActor_text]
  · simp [content,hmillis,hjson]

theorem fromRows_eq_some : fromRows ext rows = some es ↔
    List.Forall₂ (fun r e => fromRow ext r = some e) rows es := by
  induction rows generalizing es with
  | nil => simp [fromRows]
  | cons r rows ih =>
    simp only [fromRows,Option.bind_eq_bind,Option.bind_eq_some_iff,Option.pure_def,Option.some.injEq]
    constructor
    · rintro ⟨e,he,es',hes,rfl⟩
      exact .cons he (ih.mp hes)
    · intro h
      cases h with
      | cons he hes => exact ⟨_,he,_,ih.mpr hes,rfl⟩

theorem walk_eq_ok : walk ext key ps t es = .ok () ↔ (∀ e ∈ es, auditEntryTagValid ext key e) ∧
      Linked prevHmac hmac t es ∧
      (ps.toList++es.map seq).IsChain (fun m n => n = m+1) := by
  induction es generalizing ps t with
  | nil => cases ps <;> simp [walk,Linked]
  | cons e es ih =>
    have hchain : (ps.toList++(e::es).map seq).IsChain (fun m n => n = m+1) ↔
        ps.filter (fun ps => e.seq ≠ ps+1) = none ∧
          ((some e.seq).toList++es.map seq).IsChain (fun m n => n = m+1) := by
      cases ps with
      | none => simp
      | some m => simp
    rw [hchain,walk,Linked]
    cases hfilter : ps.filter (fun ps => e.seq ≠ ps+1) with
    | some m => simp
    | none =>
      split_ifs with hvalid hprev
      · simp [hvalid]
      · simp [hprev]
      · rw [ih]
        simp only [forall_mem_cons]
        rw [Bool.not_eq_false] at hvalid
        tauto

theorem verifyAuditChain_eq_ok : verifyAuditChain ext (some key) rows = .ok (.verified n) ↔
      ∃ read, auditLog ext rows = some read ∧ walk ext key none none read = .ok () ∧
      read.length = n := by
  rw [verifyAuditChain]
  cases hread : auditLog ext rows with
  | none => simp
  | some read =>
    simp only [Fallible.map_eq_ok,AuditChainVerification.verified.injEq,some.injEq,exists_eq_left']
    constructor
    · rintro ⟨⟨⟩,hwalk,hlength⟩
      exact ⟨hwalk,hlength⟩
    · rintro ⟨hwalk,hlength⟩
      exact ⟨(),hwalk,hlength⟩

section

def Follows (es : List (AuditEntry α)) (n : ℕ) : Prop := ∀ e, es.getLast? = some e → n = e.seq+1

/-- Where the process stands between the steps of an append. -/
inductive InProcess (ext : Externals α) (key : List UInt8) (drafted : Draft α → Prop) (s : Trail α)
    (es : List (AuditEntry α)) : Prop
  | idle (critical : s.critical = none) (head : s.chainHead = lastTag hmac none es)
      (above : ∀ e ∈ es, e.seq < s.nextAuditSeq) (skip : s.skipped = false ↔ Follows es s.nextAuditSeq)
  | signed (c : AuditEntry α) (critical : s.critical = some (c,false))
      (head : s.chainHead = lastTag hmac none es) (prev : c.prevHmac = s.chainHead)
      (tag : c.hmac = some (auditEntryTag ext key c)) (drafted : drafted c.toDraft)
      (above : ∀ e ∈ es, e.seq < c.seq) (next : s.nextAuditSeq = c.seq+1)
      (skip : s.skipped = false ↔ Follows es c.seq)
  | stored (c : AuditEntry α) (critical : s.critical = some (c,true)) (last : es.getLast? = some c)
      (next : s.nextAuditSeq = c.seq+1) (skip : s.skipped = false)

/-- The dataset holds signed entries, linked, with rising numbers. -/
structure Intact (ext : Externals α) (key : List UInt8) (drafted : Draft α → Prop) (s : Trail α)
    (es : List (AuditEntry α)) : Prop where
  rows : s.rows = es.map (toRow ext)
  drafts : ∀ e ∈ es, drafted e.toDraft
  signed : ∀ e ∈ es, e.hmac = some (auditEntryTag ext key e)
  linked : Linked prevHmac hmac none es
  rising : es.Pairwise (fun e f => e.seq < f.seq)
  counted : s.acknowledged+s.unreturned ≤ es.length
  process : InProcess ext key drafted s es

variable {drafted : Draft α → Prop} {s : Trail α}

theorem intact_empty : Intact ext key drafted empty [] where
  rows := rfl
  drafts := by simp
  signed := by simp
  linked := trivial
  rising := .nil
  counted := le_refl 0
  process := .idle rfl rfl (by simp) (by simp [empty,Follows])

theorem best_row (h : rows.foldl (fun best r => if best.all (fun b => b.seq < r.seq) then
    some r else best) best = b) : b = best ∨ ∃ r ∈ rows, b = some r := by
  induction rows generalizing best with
  | nil => exact .inl h.symm
  | cons r rows ih =>
    rw [foldl_cons] at h
    rcases ih h with hb | ⟨x,hx,hb⟩
    · split_ifs at hb
      · exact .inr ⟨r,by simp,hb⟩
      · exact .inl hb
    · exact .inr ⟨x,by simp [hx],hb⟩

theorem recover_concat (h : ∀ x ∈ rows, x.seq < r.seq) :
    recoverAuditChainState (rows++[r]) = (r.seq+1,r.hmac) := by
  have hbest : (rows.foldl (fun best x => if best.all (fun b => b.seq < x.seq) then some x else
      best) none).all (fun b => b.seq < r.seq) = true := by
    rcases best_row rfl with hb | ⟨x,hx,hb⟩
    · rw [hb]
      rfl
    · rw [hb,all_some,decide_eq_true_eq]
      exact h x hx
  rw [recoverAuditChainState,foldl_append,foldl_cons,foldl_nil,if_pos hbest]

variable (h : Intact ext key drafted s es)
include h

theorem Intact.recover : (recoverAuditChainState s.rows).2 = lastTag hmac none es ∧
      (∀ e ∈ es, e.seq < (recoverAuditChainState s.rows).1) ∧
      Follows es (recoverAuditChainState s.rows).1 := by
  rcases eq_nil_or_concat' es with rfl | ⟨ds,d,rfl⟩
  · rw [h.rows]
    exact ⟨rfl,by simp,by simp [Follows]⟩
  · have hbelow : ∀ e ∈ ds, e.seq < d.seq := by
      intro e he
      exact (pairwise_append.mp h.rising).2.2 e he d (by simp)
    have hrecover : recoverAuditChainState s.rows = (d.seq+1,d.hmac) := by
      rw [h.rows,map_append]
      apply recover_concat
      intro x hx
      obtain ⟨e,he,rfl⟩ := mem_map.mp hx
      exact hbelow e he
    rw [hrecover,lastTag_concat]
    refine ⟨rfl,?_,?_⟩
    · intro e he
      rcases mem_append.mp he with he | he
      · exact (hbelow e he).trans (Nat.lt_succ_self _)
      · obtain rfl := mem_singleton.mp he
        exact Nat.lt_succ_self _
    · intro e he
      rw [getLast?_concat,some.injEq] at he
      rw [he]

omit h in
theorem hmac_sign (draft : Draft α) (n : ℕ) (head : Option String) :
    (sign ext key draft n head).hmac = some (auditEntryTag ext key (sign ext key draft n head)) := rfl

theorem Intact.idle (hrows : t.rows = s.rows)
    (hcounted : t.acknowledged ≤ s.acknowledged+s.unreturned) (hcritical : t.critical = none)
    (hhead : t.chainHead = lastTag hmac none es) (habove : ∀ e ∈ es, e.seq < t.nextAuditSeq)
    (hskip : t.skipped = false ↔ Follows es t.nextAuditSeq) : Intact ext key drafted t es where
  rows := hrows.trans h.rows
  drafts := h.drafts
  signed := h.signed
  linked := h.linked
  rising := h.rising
  counted := by
    rw [unreturned,hcritical]
    exact hcounted.trans h.counted
  process := .idle hcritical hhead habove hskip

theorem Intact.begin (hd : drafted d) : Intact ext key drafted (step ext key s (.begin d)) es := by
  rcases h.process with ⟨hcritical,hhead,habove,hskip⟩ | ⟨c,hcritical⟩ | ⟨c,hcritical⟩
  · simp only [Audit.step,hcritical]
    have hcounted := h.counted
    rw [unreturned,hcritical] at hcounted
    exact ⟨h.rows,h.drafts,h.signed,h.linked,h.rising,hcounted,
      .signed (sign ext key d s.nextAuditSeq s.chainHead) rfl hhead rfl (hmac_sign _ _ _) hd habove
      rfl hskip⟩
  · simp only [Audit.step,hcritical]
    exact h
  · simp only [Audit.step,hcritical]
    exact h

theorem Intact.stored (hcritical : s.critical = some (c,false)) :
    Intact ext key drafted (step ext key s .stored) (es++[c]) := by
  rcases h.process with ⟨hc⟩ | ⟨c',hc,hhead,hprev,htag,hdrafted,habove,hnext,hskip⟩ | ⟨c',hc⟩
  · simp [hc] at hcritical
  · obtain rfl : c' = c := by simpa [hc] using hcritical
    simp only [Audit.step,hcritical]
    refine ⟨by simp [h.rows],?_,?_,?_,?_,?_,.stored c' rfl (by simp) hnext rfl⟩
    · intro e he
      rcases mem_append.mp he with he | he
      · exact h.drafts e he
      · rwa [mem_singleton.mp he]
    · intro e he
      rcases mem_append.mp he with he | he
      · exact h.signed e he
      · rwa [mem_singleton.mp he]
    · exact linked_append.mpr ⟨h.linked,hprev.trans hhead,trivial⟩
    · rw [pairwise_append]
      refine ⟨h.rising,pairwise_singleton _ _,?_⟩
      intro e he f hf
      rw [mem_singleton.mp hf]
      exact habove e he
    · have hcounted := h.counted
      rw [length_append]
      exact Nat.add_le_add (Nat.le_of_add_right_le hcounted) (le_refl 1)
  · simp [hc] at hcritical

theorem Intact.failed : Intact ext key drafted (step ext key s .failed) es := by
  rcases h.process with ⟨hc⟩ | ⟨c,hc,hhead,hprev,htag,hdrafted,habove,hnext,hskip⟩ | ⟨c,hc⟩
  · simp only [Audit.step,hc]
    exact h
  · simp only [Audit.step,hc]
    refine h.idle rfl (Nat.le_add_right _ _) rfl hhead ?_ ?_
    · intro e he
      show e.seq < s.nextAuditSeq
      have := habove e he
      omega
    · rw [Bool.or_eq_false_iff,hskip,h.rows,hnext]
      rcases eq_nil_or_concat' es with rfl | ⟨ds,d,rfl⟩
      · simp [Follows]
      · have hd := habove d (by simp)
        simp [Follows,hd.ne']
  · simp only [Audit.step,hc]
    exact h

theorem Intact.returned : Intact ext key drafted (step ext key s .returned) es := by
  rcases h.process with ⟨hc⟩ | ⟨c,hc⟩ | ⟨c,hc,hlast,hnext,hskip⟩
  · simp only [Audit.step,hc]
    exact h
  · simp only [Audit.step,hc]
    exact h
  · simp only [Audit.step,hc]
    obtain ⟨ds,rfl⟩ := getLast?_eq_some_iff.mp hlast
    have hone : s.unreturned = 1 := by
      rw [unreturned,hc]
      rfl
    refine h.idle rfl (by rw [hone]) rfl (by rw [lastTag_concat]) ?_ ?_
    · intro e he
      show e.seq < s.nextAuditSeq
      rcases mem_append.mp he with he | he
      · have := (pairwise_append.mp h.rising).2.2 e he c (by simp)
        omega
      · rw [mem_singleton.mp he]
        omega
    · simp [hskip,Follows,hnext]

theorem Intact.restart : Intact ext key drafted (step ext key s .restart) es := by
  obtain ⟨hhead,habove,hfollows⟩ := h.recover
  exact h.idle rfl (Nat.le_add_right _ _) rfl hhead habove ⟨fun _ => hfollows,fun _ => rfl⟩

omit h in
def Drafted (drafted : Draft α → Prop) (a : Event α) : Prop := ∀ d, a = .begin d → drafted d

theorem Intact.step (ha : Drafted drafted a) : ∃ fs, Intact ext key drafted (step ext key s a) fs := by
  cases a with
  | begin d => exact ⟨es,h.begin (ha d rfl)⟩
  | stored =>
    rcases h.process with ⟨hc⟩ | ⟨c,hc⟩ | ⟨c,hc⟩
    · exact ⟨es,by simpa only [Audit.step,hc] using h⟩
    · exact ⟨es++[c],h.stored hc⟩
    · exact ⟨es,by simpa only [Audit.step,hc] using h⟩
  | failed => exact ⟨es,h.failed⟩
  | returned => exact ⟨es,h.returned⟩
  | restart => exact ⟨es,h.restart⟩

omit h in
theorem intact_exec (hevents : ∀ a ∈ events, Drafted drafted a) :
    ∃ es, Intact ext key drafted (exec (Audit.step ext key) empty events) es := by
  refine invariant_of_forall (I := fun s => ∃ es, Intact ext key drafted s es) ?_
    ⟨[],intact_empty⟩ hevents
  rintro s a ha ⟨es,h⟩
  exact h.step ha

omit h in
/-- No number is skipped before an entry, no process ends with a row not acknowledged. -/
def Careful (s : Trail α) : Event α → Prop
  | .stored => (∃ c, s.critical = some (c,false)) → s.skipped = false
  | .restart => s.unreturned = 0
  | _ => True

omit h in
def Sound (s : Trail α) : Prop :=
  s.rows.IsChain (fun r q => q.seq = r.seq+1) ∧ s.rows.length = s.acknowledged+s.unreturned

theorem Intact.isChain_concat (hskip : s.skipped = false ↔ Follows es c.seq) :
    (s.rows++[toRow ext c]).IsChain (fun r q => q.seq = r.seq+1) ↔
      s.rows.IsChain (fun r q => q.seq = r.seq+1) ∧ s.skipped = false := by
  rw [hskip,h.rows]
  rcases eq_nil_or_concat' es with rfl | ⟨ds,d,rfl⟩
  · simp [Follows]
  · simp [Follows,toRow]

theorem sound_step (a : Event α) : Sound (step ext key s a) ↔ Sound s ∧ Careful s a := by
  rcases h.process with ⟨hc⟩ | ⟨c,hc,hhead,hprev,htag,hdrafted,habove,hnext,hskip⟩ | ⟨c,hc⟩
  · cases a <;> simp [Audit.step,hc,Careful,Sound,unreturned]
  · cases a with
    | stored => simp [Audit.step,hc,Careful,Sound,unreturned,h.isChain_concat hskip,and_right_comm]
    | _ => simp [Audit.step,hc,Careful,Sound,unreturned]
  · cases a with
    | restart =>
      -- the stored row has been counted in no acknowledgement, and will not be
      have hcounted := h.counted
      have hlength : s.rows.length = es.length := by rw [h.rows,length_map]
      simp only [unreturned,hc,any_some,if_true] at hcounted
      simp only [Audit.step,hc,Careful,Sound,unreturned,any_some,any_none,if_true,
        Bool.false_eq_true,if_false,one_ne_zero,and_false,iff_false,not_and]
      omega
    | _ => simp [Audit.step,hc,Careful,Sound,unreturned]

omit h

/-- What an entry keeps when it is stored and read back. -/
structure SameSigned (ext : Externals α) (e f : AuditEntry α) : Prop where
  seq : e.seq = f.seq
  hmac : e.hmac = f.hmac
  prevHmac : e.prevHmac = f.prevHmac
  content : content ext e = content ext f

theorem fromRows_map (h : ∀ e ∈ es, Readable ext e.toDraft) :
    ∃ read, fromRows ext (es.map (toRow ext)) = some read ∧ List.Forall₂ (SameSigned ext) read es := by
  induction es with
  | nil => exact ⟨[],rfl,.nil⟩
  | cons e es ih =>
    obtain ⟨e',he',hseq,hhmac,hprev,hcontent⟩ := fromRow_toRow (h e (by simp))
    obtain ⟨read,hread,hsame⟩ := ih fun f hf => h f (by simp [hf])
    refine ⟨e'::read,?_,.cons ⟨hseq,hhmac,hprev,hcontent⟩ hsame⟩
    simp [fromRows,he',hread]

variable {read : List (AuditEntry α)}

theorem map_seq_eq (h : List.Forall₂ (SameSigned ext) read es) : read.map seq = es.map seq := by
  induction h with
  | nil => rfl
  | cons hhead _ ih => rw [map_cons,map_cons,hhead.seq,ih]

theorem exists_sameSigned (h : List.Forall₂ (SameSigned ext) read es)
    (he : e ∈ read) : ∃ f ∈ es, SameSigned ext e f := by
  induction h with
  | nil => cases he
  | @cons d f read es hhead _ ih =>
    rcases mem_cons.mp he with rfl | he
    · exact ⟨f,by simp,hhead⟩
    · obtain ⟨g,hg,hsame⟩ := ih he
      exact ⟨g,by simp [hg],hsame⟩

theorem Intact.auditLog (h : Intact ext key (Readable ext) s es) :
    ∃ read, auditLog ext s.rows = some read ∧ List.Forall₂ (SameSigned ext) read es := by
  obtain ⟨read,hread,hsame⟩ := fromRows_map h.drafts
  refine ⟨read,?_,hsame⟩
  have hrising : (read.map seq).Pairwise (· < ·) := by
    rw [map_seq_eq hsame,pairwise_map]
    exact h.rising
  have hsorted : read.Pairwise Precedes := by
    rw [pairwise_map] at hrising
    exact hrising.imp .inl
  rw [Audit.auditLog,h.rows,hread,map_some,List.Pairwise.insertionSort_eq hsorted]

theorem Intact.walk (h : Intact ext key (Readable ext) s es)
    (hsame : List.Forall₂ (SameSigned ext) read es) :
    walk ext key none none read = .ok () ↔ s.rows.IsChain (fun r q => q.seq = r.seq+1) := by
  have hvalid : ∀ e ∈ read, auditEntryTagValid ext key e := by
    intro e he
    obtain ⟨f,hf,hef⟩ := exists_sameSigned hsame he
    rw [auditEntryTagValid,hef.hmac,h.signed f hf,hef.content,bind_some,auditEntryTag,
      hexDecode_hexEncode,beq_self_eq_true]
  have hlinked : Linked prevHmac hmac none read :=
    (linked_congr (hsame.imp fun _ _ hf => ⟨hf.prevHmac,hf.hmac⟩)).mpr h.linked
  rw [walk_eq_ok,toList_none,nil_append,map_seq_eq hsame,h.rows,isChain_map,
    isChain_map]
  exact ⟨fun hw => hw.2.2,fun hchain => ⟨hvalid,hlinked,hchain⟩⟩

/-- The untouched trail verifies, with an entry for each append that returned `Ok`, exactly if the run
was careful. -/
theorem untouched_verifies_iff {α : Type} {ext : Externals α} {key : List UInt8}
    {events : List (Event α)} (hevents : ∀ a ∈ events, Drafted (Readable ext) a) :
    verifyAuditChain ext (some key) (exec (step ext key) Trail.empty events).rows =
        .ok (.verified (exec (step ext key) Trail.empty events).acknowledged) ↔
      Admissible (step ext key) Careful Trail.empty events ∧
        (exec (step ext key) Trail.empty events).unreturned = 0 := by
  have hsound : Sound (exec (step ext key) (empty : Trail α) events) ↔
      Sound (empty : Trail α) ∧ Admissible (step ext key) Careful empty events := by
    refine holds_iff_admissible (I := fun s => ∃ es, Intact ext key (Readable ext) s es) ?_ ?_
      hevents ⟨[],intact_empty⟩
    · rintro s a ha ⟨es,h⟩
      exact h.step ha
    · rintro s a - ⟨es,h⟩
      exact sound_step h a
  obtain ⟨es,h⟩ := @intact_exec α ext key (Readable ext) events hevents
  obtain ⟨read,hread,hsame⟩ := h.auditLog
  have hcounted := h.counted
  have hlength : (exec (step ext key) empty events).rows.length = es.length := by
    rw [h.rows,length_map]
  have hinit : Sound (empty : Trail α) := ⟨.nil,rfl⟩
  rw [and_iff_right hinit] at hsound
  rw [verifyAuditChain_eq_ok,← hsound]
  constructor
  · rintro ⟨read',hread',hwalk,hcount⟩
    obtain rfl : read = read' := some.inj (hread.symm.trans hread')
    rw [h.walk hsame] at hwalk
    rw [hsame.length_eq] at hcount
    exact ⟨⟨hwalk,by omega⟩,by omega⟩
  · rintro ⟨⟨hchain,hcount⟩,hreturned⟩
    refine ⟨read,hread,(h.walk hsame).mpr hchain,?_⟩
    rw [hsame.length_eq]
    omega
end

/-- The simplest hash, ULIDs in hexadecimal, and actions that are their JSON. -/
def sampleExternals : Externals (List UInt8) where
  idText id := hexEncode (toLeBytes 16 id)
  parseId s := (hexDecode s).map fun bs => Fin.ofNat (2^128) (fromLeBytes bs)
  toJson := id
  fromJson := some
  computeHmac key content := toLeBytes 32 ((key++content).foldl (fun h b => h*257+b.toNat+1) 0)
  parseId_idText id := by
    have hid : id.val < 256^16 := lt_of_lt_of_eq id.isLt (by norm_num)
    rw [hexDecode_hexEncode,map_some,fromLeBytes_toLeBytes hid,Fin.ofNat_val_eq_self]
  length_idText id := by
    rw [length_of_hexDecode (hexDecode_hexEncode _),length_toLeBytes]
    norm_num
  length_computeHmac _ _ := length_toLeBytes 32 _

def sampleDraft (n : ℕ) : Draft (List UInt8) := ⟨Fin.ofNat _ n,n,none,[UInt8.ofNat n]⟩

def failedBetween : List (Event (List UInt8)) :=
  [.begin (sampleDraft 1),.stored,.returned,.begin (sampleDraft 2),.failed,.begin (sampleDraft 3),
  .stored,.returned]

/-- Two appends returned `Ok`, and the dataset counts as tampered with. -/
theorem failed_append_breaks_trail : (exec (step sampleExternals [7]) Trail.empty
    failedBetween).acknowledged = 2 ∧
      verifyAuditChain sampleExternals (some [7])
      (exec (step sampleExternals [7]) Trail.empty failedBetween).rows =
        .error (.seqGap 0 2) := by
  decide +kernel

def restartedBetween : List (Event (List UInt8)) :=
  [.begin (sampleDraft 1),.stored,.returned,.begin (sampleDraft 2),.failed,.restart,
  .begin (sampleDraft 3),.stored,
    .returned]

theorem sampleDraft_readable (hn : n ≤ 1000) : Readable sampleExternals (sampleDraft n) := by
  refine ⟨⟨?_,?_⟩,[UInt8.ofNat n],rfl,rfl⟩
  · exact Int.natCast_nonneg n
  · show (n : ℤ) ≤ maxUtcMs
    rw [maxUtcMs]
    omega

theorem untouched_verifies_restarted :
    verifyAuditChain sampleExternals (some [7])
    (exec (step sampleExternals [7]) Trail.empty restartedBetween).rows =
      .ok (.verified (exec (step sampleExternals [7]) Trail.empty restartedBetween).acknowledged) := by
  have hreadable : ∀ a ∈ restartedBetween, Drafted (Readable sampleExternals) a := by
    intro a ha d hd
    subst hd
    simp only [restartedBetween,mem_cons,Event.begin.injEq,reduceCtorEq,not_mem_nil,or_false,
      false_or] at ha
    rcases ha with rfl | rfl | rfl <;> exact sampleDraft_readable (by norm_num)
  refine (untouched_verifies_iff hreadable).mpr ⟨?_,rfl⟩
  exact ⟨trivial,fun _ => rfl,trivial,trivial,trivial,rfl,trivial,fun _ => rfl,trivial,trivial⟩
end Hirn.Audit
