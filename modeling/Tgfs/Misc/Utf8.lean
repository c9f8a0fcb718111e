import Mathlib.Data.List.Basic

/-!
# UTF-8 with `surrogateescape`

`decode` turns every list of bytes into code points: a byte that is in no well-formed sequence
becomes a surrogate of its own. `encode` is its inverse on the way out. Text without surrogates
comes from well-formed bytes only.
-/

namespace Tgfs

namespace Utf8

/-- The character whose encoding is in front. -/
def front (bs : List UInt8) : Option Char := ByteArray.utf8DecodeChar? bs.toByteArray 0

/-- What a byte outside of every well-formed sequence becomes. -/
def escape (b : UInt8) : Nat := 0xDC00 + b.toNat

/-- The code points behind the next `k` bytes. -/
def decodeFrom : Nat → List UInt8 → List Nat
  | _, [] => []
  | k + 1, _ :: bs => decodeFrom k bs
  | 0, b :: bs =>
    match front (b :: bs) with
    | some c => c.toNat :: decodeFrom (c.utf8Size - 1) bs
    | none => escape b :: decodeFrom 0 bs

/-- `bytes.decode("utf-8", "surrogateescape")`. -/
def decode (bs : List UInt8) : List Nat := decodeFrom 0 bs

def encodeChar (n : Nat) : Option (List UInt8) :=
  if n.isValidChar then some (String.utf8EncodeChar (Char.ofNat n))
  else if 0xDC80 ≤ n ∧ n ≤ 0xDCFF then some [UInt8.ofNat (n - 0xDC00)]
  else none

/-- `str.encode("utf-8", "surrogateescape")`; `none` is the `UnicodeEncodeError`. -/
def encode : List Nat → Option (List UInt8)
  | [] => some []
  | n :: ns => do
    let b ← encodeChar n
    let bs ← encode ns
    pure (b ++ bs)

def Surrogate (n : Nat) : Prop := 0xD800 ≤ n ∧ n ≤ 0xDFFF

instance : DecidablePred Surrogate := fun _ => inferInstanceAs (Decidable (_ ∧ _))

/-- The bytes are the encoding of some text. -/
def WellFormed (bs : List UInt8) : Prop := ∃ cs : List Char, cs.flatMap String.utf8EncodeChar = bs

/-! ## One character -/

theorem front_append (c : Char) (bs : List UInt8) :
    front (String.utf8EncodeChar c ++ bs) = some c := by
  unfold front
  rw [List.toByteArray_append]
  exact ByteArray.utf8DecodeChar?_utf8EncodeChar_append

theorem of_front {bs : List UInt8} {c : Char} (h : front bs = some c) :
    bs = String.utf8EncodeChar c ++ bs.drop c.utf8Size := by
  obtain ⟨rest, hrest⟩ := ByteArray.exists_of_utf8DecodeChar?_eq_some h
  have hbs : bs = String.utf8EncodeChar c ++ rest.data.toList := by
    rw [← List.toByteArray_inj, List.toByteArray_append, hrest]
    congr 1
    ext1
    simp
  rw [hbs, List.drop_append_of_le_length (by simp), ← String.length_utf8EncodeChar]
  simp

/-- A byte below 128 is a character. -/
theorem front_ascii {b : UInt8} (h : b.toNat < 128) (bs : List UInt8) :
    front (b :: bs) = some (Char.ofNat b.toNat) := by
  have hvalid : b.toNat.isValidChar := .inl (by omega)
  have hval : (Char.ofNat b.toNat).toNat = b.toNat := by
    rw [Char.ofNat, dif_pos hvalid]
    rfl
  have hone : (Char.ofNat b.toNat).utf8Size = 1 := by
    rw [Char.utf8Size_eq_one_iff, UInt32.le_iff_toNat_le]
    exact Nat.le_trans (Nat.le_of_eq hval) (Nat.le_of_lt_succ h)
  have hbyte : (Char.ofNat b.toNat).val.toUInt8 = b := by
    rw [← UInt8.toNat_inj, UInt32.toNat_toUInt8]
    exact (congrArg (· % 256) hval).trans (Nat.mod_eq_of_lt b.toNat_lt)
  have henc : String.utf8EncodeChar (Char.ofNat b.toNat) = [b] := by
    rw [String.utf8EncodeChar_eq_singleton hone, hbyte]
  have hfront := front_append (Char.ofNat b.toNat) bs
  rwa [henc] at hfront

theorem isValidChar_toNat (c : Char) : c.toNat.isValidChar := c.valid

theorem encodeChar_toNat (c : Char) : encodeChar c.toNat = some (String.utf8EncodeChar c) := by
  unfold encodeChar
  rw [if_pos (isValidChar_toNat c), Char.ofNat_toNat]

theorem encodeChar_escape {b : UInt8} (h : 128 ≤ b.toNat) : encodeChar (escape b) = some [b] := by
  have hlt := b.toNat_lt
  have hnot : ¬ (escape b).isValidChar := by
    unfold escape Nat.isValidChar
    omega
  unfold encodeChar
  rw [if_neg hnot, if_pos (by unfold escape; omega)]
  simp [escape]

theorem surrogate_escape (b : UInt8) : Surrogate (escape b) := by
  have hlt := b.toNat_lt
  unfold Surrogate escape
  omega

theorem not_surrogate (c : Char) : ¬ Surrogate c.toNat := by
  have hvalid := isValidChar_toNat c
  unfold Nat.isValidChar at hvalid
  unfold Surrogate
  omega

/-! ## Text -/

theorem encode_cons {n : Nat} {ns : List Nat} {b bs : List UInt8} (h : encodeChar n = some b)
    (hs : encode ns = some bs) : encode (n :: ns) = some (b ++ bs) := by
  unfold encode
  rw [h, hs]
  rfl

theorem encode_decodeFrom (k : Nat) (bs : List UInt8) : encode (decodeFrom k bs) = some (bs.drop k) := by
  induction bs generalizing k with
  | nil => simp [decodeFrom, encode]
  | cons b bs ih =>
    cases k with
    | succ k => exact ih k
    | zero =>
      unfold decodeFrom
      cases hf : front (b :: bs) with
      | some c =>
        have hdrop : (b :: bs).drop c.utf8Size = bs.drop (c.utf8Size - 1) := by
          rw [← Nat.sub_add_cancel c.utf8Size_pos]
          rfl
        rw [List.drop_zero]
        refine (encode_cons (encodeChar_toNat c) (ih _)).trans (congrArg some ?_)
        rw [← hdrop]
        exact (of_front hf).symm
      | none =>
        have hbig : 128 ≤ b.toNat := by
          by_contra hsmall
          rw [front_ascii (Nat.lt_of_not_le hsmall)] at hf
          cases hf
        exact encode_cons (encodeChar_escape hbig) (ih 0)

/-- `os.fsencode` gives back what `os.fsdecode` got. -/
theorem encode_decode (bs : List UInt8) : encode (decode bs) = some bs := encode_decodeFrom 0 bs

theorem decode_injective {bs bs' : List UInt8} (h : decode bs = decode bs') : bs = bs' :=
  Option.some.inj ((encode_decode bs).symm.trans ((congrArg encode h).trans (encode_decode bs')))

theorem decodeFrom_append (bs bs' : List UInt8) : decodeFrom bs.length (bs ++ bs') = decode bs' := by
  induction bs with
  | nil => rfl
  | cons b bs ih => exact ih

theorem decodeFrom_front {b : UInt8} {bs : List UInt8} {c : Char} (h : front (b :: bs) = some c) :
    decodeFrom 0 (b :: bs) = c.toNat :: decodeFrom (c.utf8Size - 1) bs := by
  rw [decodeFrom, h]

theorem decode_encode (cs : List Char) :
    decode (cs.flatMap String.utf8EncodeChar) = cs.map Char.toNat := by
  induction cs with
  | nil => rfl
  | cons c cs ih =>
    rw [List.flatMap_cons, List.map_cons, ← ih]
    have hfront := front_append c (cs.flatMap String.utf8EncodeChar)
    have hlen := String.length_utf8EncodeChar c
    cases hc : String.utf8EncodeChar c with
    | nil =>
      rw [hc] at hlen
      exact absurd hlen.symm (Nat.pos_iff_ne_zero.mp c.utf8Size_pos)
    | cons b tail =>
      rw [hc, List.cons_append] at hfront
      rw [hc, List.length_cons] at hlen
      rw [List.cons_append]
      refine (decodeFrom_front hfront).trans (congrArg (c.toNat :: ·) ?_)
      rw [← hlen, Nat.add_sub_cancel, decodeFrom_append]

theorem chars_of_decodeFrom {k : Nat} {bs : List UInt8} (h : ∀ n ∈ decodeFrom k bs, ¬ Surrogate n) :
    ∃ cs : List Char, decodeFrom k bs = cs.map Char.toNat := by
  induction bs generalizing k with
  | nil => exact ⟨[], by simp [decodeFrom]⟩
  | cons b bs ih =>
    cases k with
    | succ k => exact ih h
    | zero =>
      unfold decodeFrom at h ⊢
      cases hf : front (b :: bs) with
      | some c =>
        rw [hf] at h
        obtain ⟨cs, hcs⟩ := ih fun n hn => h n (List.mem_cons_of_mem _ hn)
        exact ⟨c :: cs, by rw [List.map_cons, ← hcs]⟩
      | none =>
        rw [hf] at h
        exact absurd (surrogate_escape b) (h _ List.mem_cons_self)

theorem encode_chars (cs : List Char) :
    encode (cs.map Char.toNat) = some (cs.flatMap String.utf8EncodeChar) := by
  induction cs with
  | nil => rfl
  | cons c cs ih => exact encode_cons (encodeChar_toNat c) ih

/-- Well-formed bytes are those that need no surrogate. -/
theorem wellFormed_iff {bs : List UInt8} : WellFormed bs ↔ ∀ n ∈ decode bs, ¬ Surrogate n := by
  constructor
  · rintro ⟨cs, rfl⟩ n hn
    rw [decode_encode] at hn
    obtain ⟨c, -, rfl⟩ := List.mem_map.mp hn
    exact not_surrogate c
  · intro h
    obtain ⟨cs, hcs⟩ := chars_of_decodeFrom h
    refine ⟨cs, Option.some.inj ?_⟩
    rw [← encode_chars, ← hcs]
    exact encode_decode bs

end Utf8

end Tgfs
