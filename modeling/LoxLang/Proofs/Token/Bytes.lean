import LoxLang.Proofs.Token.Piece
import Mathlib.Data.Fin.Basic

/-!
# Characters and bytes

The scanner reads bytes, and the pieces of a text are made of characters. A character below 128 is
one byte, and all bytes of another one are 128 or more, so that runs of bytes are runs of characters.

## Main definitions

* `encode`: the bytes of characters.
* `Bytes.rest`: the bytes from a place on.
* `Mirrors`: a class of bytes is that of characters.

## Main results

* `takeWhile_encode`: a run of bytes is a run of characters.
* `Bytes.slice_eq`: text that is cut out is cut between characters.
-/

namespace LoxLang

/-! ## The bytes of a character -/

/-- The bytes of characters. -/
def encode (cs : List Char) : List UInt8 := cs.flatMap String.utf8EncodeChar

@[simp] theorem encode_nil : encode [] = [] := rfl

theorem encode_cons (c : Char) (cs : List Char) :
    encode (c :: cs) = String.utf8EncodeChar c ++ encode cs := List.flatMap_cons

theorem encode_append (cs ds : List Char) : encode (cs ++ ds) = encode cs ++ encode ds :=
  List.flatMap_append

theorem toList_data_toByteArray (source : String) :
    source.toByteArray.data.toList = encode source.toList := by
  rw [← String.utf8Encode_toList]
  simp [List.utf8Encode, encode]

/-- What holds of 256 bytes holds of all. -/
theorem forall_byte {P : UInt8 → Prop} (h : ∀ n : Fin 256, P (UInt8.ofNat n)) (b : UInt8) : P b := by
  have hb := h ⟨b.toNat, b.toNat_lt⟩
  rwa [UInt8.ofNat_toNat] at hb

/-- What holds of 128 characters holds of all that are one byte. -/
theorem forall_ascii {P : Char → Prop} (h : ∀ n : Fin 128, P (Char.ofNat n)) {c : Char}
    (hc : c.toNat < 128) : P c := by
  have hb := h ⟨c.toNat, hc⟩
  rwa [Char.ofNat_toNat] at hb

theorem test_continuation (b : UInt8) :
    ByteClass.continuation.test b = (decide (128 ≤ b.toNat) && decide (b.toNat < 192)) :=
  forall_byte (P := fun b => ByteClass.continuation.test b =
    (decide (128 ≤ b.toNat) && decide (b.toNat < 192))) (by decide +kernel) b

theorem utf8EncodeChar_of_lt {c : Char} (h : c.toNat < 128) :
    String.utf8EncodeChar c = [c.toUInt8] :=
  forall_ascii (P := fun c => String.utf8EncodeChar c = [c.toUInt8]) (by decide +kernel) h

/-- The bytes of a character that is not one byte: one that begins no other character, and those that
continue it. -/
theorem exists_utf8EncodeChar_eq {c : Char} (h : 128 ≤ c.toNat) :
    ∃ lead bs, String.utf8EncodeChar c = lead :: bs ∧ 192 ≤ lead.toNat ∧
      ∀ b ∈ bs, ByteClass.continuation.test b := by
  have hwide : ¬ c.val.toNat ≤ 127 := by
    have : c.toNat = c.val.toNat := rfl
    omega
  simp only [String.utf8EncodeChar, hwide, if_false, test_continuation]
  split
  · exact ⟨_, _, rfl, by simp; omega, by simp; omega⟩
  · split
    · exact ⟨_, _, rfl, by simp; omega, by simp; omega⟩
    · exact ⟨_, _, rfl, by simp; omega, by simp; omega⟩

theorem le_of_mem_utf8EncodeChar {c : Char} (h : 128 ≤ c.toNat) {b : UInt8}
    (hb : b ∈ String.utf8EncodeChar c) : 128 ≤ b.toNat := by
  obtain ⟨lead, bs, hbytes, hlead, hbs⟩ := exists_utf8EncodeChar_eq h
  rw [hbytes] at hb
  rcases List.mem_cons.mp hb with rfl | hb
  · omega
  · have htest := hbs b hb
    rw [test_continuation, Bool.and_eq_true, decide_eq_true_eq] at htest
    exact htest.1

theorem encode_cons_of_lt {c : Char} (h : c.toNat < 128) (cs : List Char) :
    encode (c :: cs) = c.toUInt8 :: encode cs := by
  rw [encode_cons, utf8EncodeChar_of_lt h]
  rfl

theorem encode_cons_ne_nil (c : Char) (cs : List Char) : encode (c :: cs) ≠ [] := by
  rw [encode_cons]
  exact List.append_ne_nil_of_left_ne_nil String.utf8EncodeChar_ne_nil _

/-! ## Runs of bytes and of characters -/

/-- A class of bytes is that of characters: they agree on what is one byte, and both have all or
nothing of what is not. -/
structure Mirrors (test : UInt8 → Bool) (p : Char → Bool) : Prop where
  ascii : ∀ c : Char, c.toNat < 128 → test c.toUInt8 = p c
  wide : ∃ v, (∀ b : UInt8, 128 ≤ b.toNat → test b = v) ∧ ∀ c : Char, 128 ≤ c.toNat → p c = v

/-- A run of bytes is a run of characters. -/
theorem takeWhile_encode {test : UInt8 → Bool} {p : Char → Bool} (h : Mirrors test p)
    (cs : List Char) : (encode cs).takeWhile test = encode (cs.takeWhile p) := by
  induction cs with
  | nil => rfl
  | cons c cs ih =>
    rcases Nat.lt_or_ge c.toNat 128 with hc | hc
    · rw [encode_cons_of_lt hc, List.takeWhile_cons, List.takeWhile_cons, h.ascii c hc]
      cases p c with
      | false => rfl
      | true => simp only [if_true, encode_cons_of_lt hc, ih]
    · obtain ⟨v, hbyte, hchar⟩ := h.wide
      have hall : ∀ b ∈ String.utf8EncodeChar c, test b = v := fun b hb =>
        hbyte b (le_of_mem_utf8EncodeChar hc hb)
      rw [encode_cons, List.takeWhile_cons, hchar c hc]
      cases v with
      | false =>
        obtain ⟨lead, bs, hbytes, -⟩ := exists_utf8EncodeChar_eq hc
        rw [hbytes] at hall
        rw [hbytes, List.cons_append, List.takeWhile_cons, hall lead List.mem_cons_self]
        rfl
      | true =>
        simp only [if_true, encode_cons]
        rw [List.takeWhile_append_of_pos hall, ih]

/-- No byte that continues a character begins one. -/
theorem takeWhile_continuation_encode (cs : List Char) :
    (encode cs).takeWhile ByteClass.continuation.test = [] := by
  cases cs with
  | nil => rfl
  | cons c cs =>
    have hfirst : ∃ b bs, encode (c :: cs) = b :: bs ∧ ByteClass.continuation.test b = false := by
      rcases Nat.lt_or_ge c.toNat 128 with hc | hc
      · refine ⟨_, _, encode_cons_of_lt hc cs, ?_⟩
        exact forall_ascii (P := fun c => ByteClass.continuation.test c.toUInt8 = false)
          (by decide +kernel) hc
      · obtain ⟨lead, bs, hbytes, hlead, -⟩ := exists_utf8EncodeChar_eq hc
        refine ⟨lead, bs ++ encode cs, by rw [encode_cons, hbytes, List.cons_append], ?_⟩
        rw [test_continuation]
        simp
        omega
    obtain ⟨b, bs, hb, htest⟩ := hfirst
    rw [hb, List.takeWhile_cons, htest]
    rfl

/-! ## The classes of the scanner -/

theorem ofUInt8_toUInt8 {c : Char} (h : c.toNat < 128) : Char.ofUInt8 c.toUInt8 = c :=
  forall_ascii (P := fun c => Char.ofUInt8 c.toUInt8 = c) (by decide +kernel) h

theorem toUInt8_inj {c d : Char} (hc : c.toNat < 128) (hd : d.toNat < 128) :
    c.toUInt8 = d.toUInt8 ↔ c = d := by
  refine ⟨fun h => ?_, fun h => h ▸ rfl⟩
  rw [← ofUInt8_toUInt8 hc, ← ofUInt8_toUInt8 hd, h]

theorem toNat_toUInt8_lt {c : Char} (h : c.toNat < 128) : c.toUInt8.toNat < 128 :=
  forall_ascii (P := fun c => c.toUInt8.toNat < 128) (by decide +kernel) h

/-- Classes of characters that are one byte. -/
theorem Mirrors.of_ascii {test : UInt8 → Bool} {p : Char → Bool}
    (hascii : ∀ n : Fin 128, test (Char.ofNat n).toUInt8 = p (Char.ofNat n))
    (hbyte : ∀ n : Fin 256, 128 ≤ (UInt8.ofNat n).toNat → test (UInt8.ofNat n) = false)
    (hchar : ∀ c, p c → c.toNat < 128) : Mirrors test p where
  ascii _ hc := forall_ascii (P := fun c => test c.toUInt8 = p c) hascii hc
  wide := by
    refine ⟨false, forall_byte hbyte, fun c hc => Bool.eq_false_iff.mpr fun h => ?_⟩
    exact absurd (hchar c h) (Nat.not_lt.mpr hc)

theorem toNat_lt_of_isDigit {c : Char} (h : isDigit c) : c.toNat < 128 := by
  simp only [isDigit, Bool.and_eq_true, decide_eq_true_eq] at h
  exact Nat.lt_of_le_of_lt h.2 (by decide)

theorem toNat_lt_of_isLetter {c : Char} (h : isLetter c) : c.toNat < 128 := by
  simp only [isLetter, Bool.or_eq_true, Bool.and_eq_true, decide_eq_true_eq] at h
  rcases h with (⟨-, h⟩ | ⟨-, h⟩) | rfl
  · exact Nat.lt_of_le_of_lt h (by decide)
  · exact Nat.lt_of_le_of_lt h (by decide)
  · decide

theorem mirrors_digit : Mirrors ByteClass.digit.test isDigit :=
  .of_ascii (by decide +kernel) (by decide +kernel) fun _ => toNat_lt_of_isDigit

theorem mirrors_letter : Mirrors ByteClass.letter.test isLetter :=
  .of_ascii (by decide +kernel) (by decide +kernel) fun _ => toNat_lt_of_isLetter

theorem mirrors_word : Mirrors ByteClass.word.test isWordChar := by
  refine .of_ascii (by decide +kernel) (by decide +kernel) fun c h => ?_
  rcases Bool.or_eq_true_iff.mp h with h | h
  · exact toNat_lt_of_isLetter h
  · exact toNat_lt_of_isDigit h

/-- What ends at a character that is one byte. -/
theorem mirrors_ne {d : Char} (hd : d.toNat < 128) : Mirrors (· != d.toUInt8) (· != d) where
  ascii c hc := by
    rw [Bool.eq_iff_iff, bne_iff_ne, bne_iff_ne, Ne, toUInt8_inj hc hd]
  wide := by
    have hbyte := toNat_toUInt8_lt hd
    refine ⟨true, fun b hb => bne_iff_ne.mpr ?_, fun c hc => bne_iff_ne.mpr ?_⟩
    · rintro rfl
      omega
    · rintro rfl
      omega

theorem mirrors_eq {d : Char} (hd : d.toNat < 128) : Mirrors (· == d.toUInt8) (· == d) := by
  obtain ⟨hascii, v, hbyte, hchar⟩ := mirrors_ne hd
  refine ⟨fun c hc => Bool.not_inj (hascii c hc), !v, fun b hb => ?_, fun c hc => ?_⟩
  · rw [← hbyte b hb, bne, Bool.not_not]
  · rw [← hchar c hc, bne, Bool.not_not]

/-! ## Bytes from a place on -/

namespace Bytes

variable {bytes : ByteArray} {i : Nat}

/-- The bytes from a place on. -/
def rest (bytes : ByteArray) (i : Nat) : List UInt8 := bytes.data.toList.drop i

theorem rest_add (bytes : ByteArray) (i n : Nat) :
    rest bytes (i + n) = (rest bytes i).drop n := by
  rw [rest, rest, List.drop_drop]

theorem rest_of_append {xs ys : List UInt8} (h : rest bytes i = xs ++ ys) :
    rest bytes (i + xs.length) = ys := by
  rw [rest_add, h, List.drop_left]

theorem rest_eq_nil_iff : rest bytes i = [] ↔ bytes.size ≤ i := by
  simp [rest, ByteArray.size_data]

theorem lt_size_of_rest {b : UInt8} {bs : List UInt8} (h : rest bytes i = b :: bs) :
    i < bytes.size := by
  refine Nat.lt_of_not_le fun hle => ?_
  rw [rest_eq_nil_iff.mpr hle] at h
  cases h

theorem peek_eq_headD (bytes : ByteArray) (i : Nat) : peek bytes i = (rest bytes i).headD 0 := by
  rcases Nat.lt_or_ge i bytes.size with hi | hi
  · have hi' : i < bytes.data.toList.length := hi
    rw [peek, dif_pos hi, rest, List.drop_eq_getElem_cons hi']
    rfl
  · rw [peek_of_le hi, rest_eq_nil_iff.mpr hi]
    rfl

theorem peek_of_rest {b : UInt8} {bs : List UInt8} (h : rest bytes i = b :: bs) :
    peek bytes i = b := by
  rw [peek_eq_headD, h]
  rfl

theorem rest_succ {b : UInt8} {bs : List UInt8} (h : rest bytes i = b :: bs) :
    rest bytes (i + 1) = bs := by
  rw [rest_add, h]
  rfl

theorem skipWhile_eq (k : ByteClass) (bytes : ByteArray) (i : Nat) :
    skipWhile k bytes i = i + ((rest bytes i).takeWhile k.test).length := by
  fun_induction skipWhile k bytes i with
  | case1 i h ih =>
    cases hr : rest bytes i with
    | nil =>
      rw [peek_eq_headD, hr, List.headD_nil, k.test_zero] at h
      cases h
    | cons b bs =>
      rw [peek_of_rest hr] at h
      rw [ih, rest_succ hr, List.takeWhile_cons, if_pos h, List.length_cons]
      omega
  | case2 i h =>
    cases hr : rest bytes i with
    | nil => rfl
    | cons b bs =>
      rw [peek_of_rest hr] at h
      rw [List.takeWhile_cons, if_neg h]
      rfl

theorem find?_eq (b : UInt8) (h : i ≤ bytes.size) :
    (find? b bytes i).getD bytes.size = i + ((rest bytes i).takeWhile (· != b)).length := by
  fun_induction find? b bytes i with
  | case1 i hi hb =>
    cases hr : rest bytes i with
    | nil => rfl
    | cons b' bs =>
      rw [peek_of_rest hr] at hb
      simp [beq_iff_eq.mp hb]
  | case2 i hi hb ih =>
    cases hr : rest bytes i with
    | nil => exact absurd hi (Nat.not_lt.mpr (rest_eq_nil_iff.mp hr))
    | cons b' bs =>
      rw [peek_of_rest hr] at hb
      rw [ih hi, rest_succ hr, List.takeWhile_cons, if_pos (by simpa using hb), List.length_cons]
      omega
  | case3 i hi =>
    rw [rest_eq_nil_iff.mpr (Nat.not_lt.mp hi)]
    simp
    omega

/-- What is cut out along characters is their text. -/
theorem slice_eq {cs : List Char} {ys : List UInt8} (h : rest bytes i = encode cs ++ ys) {j : Nat}
    (hj : j = i + (encode cs).length) : slice bytes i j = String.ofList cs := by
  have hbytes : bytes.extract i j = cs.utf8Encode := by
    refine ByteArray.ext (Array.toList_inj.mp ?_)
    rw [ByteArray.data_extract, Array.toList_extract, List.extract_eq_take_drop]
    change (rest bytes i).take _ = _
    rw [h, hj, Nat.add_sub_cancel_left, List.take_left]
    simp [List.utf8Encode, encode]
  rw [slice, hbytes, String.fromUTF8?, dif_pos (.intro cs rfl)]
  rfl

end Bytes

end LoxLang
