import Mathlib

/-! Byte strings: the UTF-8 bytes of a text, little-endian numbers, fields behind their length,
and hexadecimal digits. -/
namespace Hirn.Bytes
open List
variable {n w : ℕ}

def bytes (s : String) : List UInt8 := s.toUTF8.data.toList

theorem bytes_injective : Function.Injective bytes := by
  intro s t h
  apply String.toByteArray_inj.mp
  exact ByteArray.ext (Array.toList_inj.mp h)

theorem bytes_append (s t : String) : bytes (s++t) = bytes s++bytes t := by
  simp [bytes]

theorem bytes_eq_flatMap (s : String) : bytes s = s.toList.flatMap String.utf8EncodeChar := by
  conv_lhs => rw [← @String.ofList_toList s]
  rw [bytes,String.toUTF8,String.toByteArray_ofList,List.utf8Encode,toList_data_toByteArray]

variable {c d : Char} {u v : List UInt8} {cs ds : List Char}

theorem encodeChar_ne_nil (c : Char) : String.utf8EncodeChar c ≠ [] := by
  rw [String.utf8EncodeChar]
  split_ifs <;> simp

theorem encodeChar_append_inj (h : String.utf8EncodeChar c++u = String.utf8EncodeChar d++v) :
    c = d := by
  have hc := @ByteArray.utf8DecodeChar?_utf8EncodeChar_append u.toByteArray c
  have hd := @ByteArray.utf8DecodeChar?_utf8EncodeChar_append v.toByteArray d
  rw [← toByteArray_append] at hc hd
  rw [h,hd] at hc
  exact (Option.some.inj hc).symm

theorem toNat_ofNat_of_lt (hn : n < 256) : (UInt8.ofNat n).toNat = n :=
  UInt8.toNat_ofNat_of_lt' hn

theorem ofNat_eq_zero (hn : n < 256) : (0 : UInt8) = UInt8.ofNat n ↔ n = 0 := by
  rw [eq_comm,← UInt8.toNat_inj,toNat_ofNat_of_lt hn]
  rfl

theorem zero_mem_encodeChar : (0 : UInt8) ∈ String.utf8EncodeChar c ↔ c = '\x00' := by
  constructor
  · intro h
    rw [String.utf8EncodeChar] at h
    split_ifs at h with h₁ h₂ h₃
    · rw [mem_singleton,ofNat_eq_zero (by omega)] at h
      exact Char.ext (UInt32.toNat_inj.mp h)
    all_goals
      simp only [mem_cons,not_mem_nil,or_false] at h
      rw [ofNat_eq_zero (by omega),ofNat_eq_zero (by omega)] at h
      try rw [ofNat_eq_zero (by omega)] at h
      try rw [ofNat_eq_zero (by omega)] at h
      omega
  · rintro rfl
    decide

theorem flatMap_append_inj (h : ds.flatMap String.utf8EncodeChar = cs.flatMap
    String.utf8EncodeChar++v) : ∃ vs, ds = cs++vs ∧ v = vs.flatMap String.utf8EncodeChar := by
  induction cs generalizing ds with
  | nil => exact ⟨ds,rfl,h.symm⟩
  | cons c cs ih =>
    cases ds with
    | nil =>
      rw [flatMap_cons,append_assoc] at h
      exact absurd (append_eq_nil_iff.mp h.symm).1 (encodeChar_ne_nil c)
    | cons d ds =>
      rw [flatMap_cons,flatMap_cons,append_assoc] at h
      have hcd := encodeChar_append_inj h
      subst hcd
      obtain ⟨vs,hds,hv⟩ := ih (append_cancel_left h)
      exact ⟨vs,by rw [hds,cons_append],hv⟩

theorem zero_mem_bytes {s : String} : (0 : UInt8) ∈ bytes s ↔ '\x00' ∈ s.toList := by
  rw [bytes_eq_flatMap,mem_flatMap]
  constructor
  · rintro ⟨c,hc,hzero⟩
    rwa [zero_mem_encodeChar.mp hzero] at hc
  · intro h
    exact ⟨_,h,zero_mem_encodeChar.mpr rfl⟩

theorem bytes_eq_append {s t : String} (h : bytes s = bytes t++v) : ∃ r, s = t++r ∧ v = bytes r := by
  rw [bytes_eq_flatMap,bytes_eq_flatMap] at h
  obtain ⟨cs,hs,hv⟩ := flatMap_append_inj h
  refine ⟨String.ofList cs,?_,?_⟩
  · rw [← @String.ofList_toList s,hs,String.ofList_append,String.ofList_toList]
  · rw [bytes_eq_flatMap,String.toList_ofList]
    exact hv

/-- The lowest `w` digits to the base 256, the lowest first. -/
def toLeBytes : ℕ → ℕ → List UInt8
  | 0, _ => []
  | w+1, n => UInt8.ofNat (n % 256)::toLeBytes w (n / 256)

@[simp] theorem length_toLeBytes (w n : ℕ) : (toLeBytes w n).length = w := by
  induction w generalizing n with
  | zero => rfl
  | succ w ih => rw [toLeBytes,length_cons,ih]

def fromLeBytes : List UInt8 → ℕ
  | [] => 0
  | b::bs => b.toNat+256*fromLeBytes bs

theorem fromLeBytes_toLeBytes (hn : n < 256^w) : fromLeBytes (toLeBytes w n) = n := by
  induction w generalizing n with
  | zero =>
    rw [toLeBytes,fromLeBytes]
    omega
  | succ w ih =>
    rw [toLeBytes,fromLeBytes,ih (by omega),toNat_ofNat_of_lt (by omega)]
    omega

theorem toLeBytes_inj {m : ℕ} (hm : m < 256^w) (hn : n < 256^w)
    (h : toLeBytes w m = toLeBytes w n) : m = n := by
  rw [← fromLeBytes_toLeBytes hm,h,fromLeBytes_toLeBytes hn]

def toLeBytesInt (w : ℕ) (i : ℤ) : List UInt8 := toLeBytes w (i % (256^w : ℕ)).toNat
@[simp] theorem length_toLeBytesInt (w : ℕ) (i : ℤ) : (toLeBytesInt w i).length = w :=
  length_toLeBytes w _

theorem toLeBytesInt_inj {i j : ℤ} (hrange : i-j < (256^w : ℕ) ∧ j-i < (256^w : ℕ))
    (h : toLeBytesInt w i = toLeBytesInt w j) : i = j := by
  have hdigits := toLeBytes_inj (by omega) (by omega) h
  have hmod : i % (256^w : ℕ) = j % (256^w : ℕ) := by omega
  have hdvd : ((256^w : ℕ) : ℤ) ∣ i-j :=
    Int.dvd_of_emod_eq_zero (Int.emod_eq_emod_iff_emod_sub_eq_zero.mp hmod)
  have hzero := Int.eq_zero_of_abs_lt_dvd hdvd (abs_lt.mpr ⟨by omega,hrange.1⟩)
  omega

theorem separated_inj {α : Type*} {a : α} {u v u' v' : List α} (hu : a ∉ u) (hu' : a ∉ u')
    (h : u++a::v = u'++a::v') : u = u' ∧ v = v' := by
  induction u generalizing u' with
  | nil =>
    cases u' with
    | nil => exact ⟨rfl,(List.cons.inj h).2⟩
    | cons x u' => exact absurd (List.cons.inj h).1 (by rintro rfl; simp at hu')
  | cons x u ih =>
    cases u' with
    | nil => exact absurd (List.cons.inj h).1 (by rintro rfl; simp at hu)
    | cons y u' =>
      obtain ⟨rfl,htail⟩ := List.cons.inj h
      rw [mem_cons,not_or] at hu hu'
      obtain ⟨rfl,hv⟩ := ih hu.2 hu'.2 htail
      exact ⟨rfl,hv⟩

def framed (fields : List (List UInt8)) : List UInt8 :=
  fields.flatMap fun f => toLeBytes 4 f.length++f

theorem framed_inj {fs gs : List (List UInt8)} {f g : List UInt8} (hfs : ∀ x ∈ fs, x.length < 256^4)
    (hgs : ∀ x ∈ gs, x.length < 256^4) (hlen : fs.length = gs.length)
    (h : framed (fs++[f]) = framed (gs++[g])) : fs = gs ∧ f = g := by
  induction fs generalizing gs with
  | nil =>
    obtain rfl : gs = [] := length_eq_zero_iff.mp hlen.symm
    simp only [framed,nil_append,flatMap_cons,flatMap_nil,append_nil] at h
    exact ⟨rfl,(append_inj h (by simp)).2⟩
  | cons x fs ih =>
    cases gs with
    | nil => cases hlen
    | cons y gs =>
      simp only [framed,cons_append,flatMap_cons,append_assoc] at h
      obtain ⟨hlength,hrest⟩ := append_inj h (by simp)
      have hxy := toLeBytes_inj (hfs x (by simp)) (hgs y (by simp)) hlength
      obtain ⟨rfl,htail⟩ := append_inj hrest hxy
      obtain ⟨rfl,rfl⟩ := ih (fun z hz => hfs z (by simp [hz])) (fun z hz => hgs z (by simp [hz]))
        (Nat.succ.inj hlen) htail
      exact ⟨rfl,rfl⟩

def hexDigit (n : ℕ) : Char := if n < 10 then Char.ofNat (48+n) else Char.ofNat (87+n)

def hexEncode (bs : List UInt8) : String :=
  String.ofList (bs.flatMap fun b => [hexDigit (b.toNat/16),hexDigit (b.toNat%16)])

/-- The value of a hexadecimal digit in either case. -/
def toDigit (b : UInt8) : Option ℕ :=
  if 48 ≤ b.toNat ∧ b.toNat ≤ 57 then some (b.toNat-48)
  else if 65 ≤ b.toNat ∧ b.toNat ≤ 70 then some (b.toNat-55)
  else if 97 ≤ b.toNat ∧ b.toNat ≤ 102 then some (b.toNat-87)
  else none

def decodePairs : List UInt8 → Option (List UInt8)
  | [] => some []
  | [_] => none
  | hi::lo::rest =>
    match toDigit hi, toDigit lo with
    | some h, some l => (decodePairs rest).map fun bs => UInt8.ofNat (16*h+l)::bs
    | _, _ => none

def hexDecode (s : String) : Option (List UInt8) := decodePairs (bytes s)

theorem hexDigit_spec : ∀ n : Fin 16, String.utf8EncodeChar (hexDigit n) =
    [UInt8.ofNat (hexDigit n).toNat] ∧ toDigit (UInt8.ofNat (hexDigit n).toNat) = some n.val := by
  decide

theorem hexDecode_hexEncode (bs : List UInt8) : hexDecode (hexEncode bs) = some bs := by
  rw [hexDecode,hexEncode,bytes_eq_flatMap,String.toList_ofList]
  induction bs with
  | nil => rfl
  | cons b bs ih =>
    have hb := b.toNat_lt
    obtain ⟨hhi,hhi'⟩ := hexDigit_spec ⟨b.toNat/16,by omega⟩
    obtain ⟨hlo,hlo'⟩ := hexDigit_spec ⟨b.toNat%16,by omega⟩
    simp only [flatMap_cons,cons_append,nil_append,hhi,hlo,decodePairs,hhi',hlo',ih,
      Option.map_some]
    rw [Nat.div_add_mod,UInt8.ofNat_toNat]

theorem length_of_hexDecode {s : String} {bs : List UInt8} (h : hexDecode s = some bs) :
    (bytes s).length = 2*bs.length := by
  rw [hexDecode] at h
  generalize bytes s = cs at h
  induction cs using decodePairs.induct generalizing bs with
  | case1 =>
    obtain rfl := Option.some.inj h
    rfl
  | case2 => cases h
  | case3 hi lo rest x y hx hy ih =>
    simp only [decodePairs,hx,hy,Option.map_eq_some_iff] at h
    obtain ⟨tail,htail,rfl⟩ := h
    have := ih htail
    simp only [length_cons]
    omega
  | case4 hi lo rest hnone =>
    simp only [decodePairs] at h
    cases h
end Hirn.Bytes
