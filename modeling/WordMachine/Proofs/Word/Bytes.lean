import Mathlib.Data.List.Induction
import Mathlib.Tactic.Ring
import WordMachine.Proofs.Word.Range
import WordMachine.Word.Bytes

/-!
# Words and their eight bytes

The bytes that are split off a number, one after another from its low end, and the number
that is put together by shifting bytes in are inverse to each other, up to what is cut off.
Eight bytes are therefore the same thing as a word. As the most significant byte comes
first, words are ordered as their bytes are in a dictionary.
-/

namespace WordMachine.Word

/-- A byte that is shifted in becomes the last base-256 digit. -/
theorem shiftIn_eq (value : Nat) (byte : UInt8) :
    shiftIn value byte = 256 * value + byte.toNat := by
  have hbyte : byte.toNat < 2 ^ 8 := byte.toNat_lt
  rw [shiftIn, ← Nat.shiftLeft_add_eq_or_of_lt hbyte, Nat.shiftLeft_eq, Nat.mul_comm]

/-- Shifting a number down leaves out its last base-256 digit. -/
theorem shiftRight_eight (value : Int) : value >>> (8 : Nat) = value / 256 :=
  Int.shiftRight_eq_div_pow value 8

/-- The byte that is split off is the last base-256 digit, of a negative number too. -/
theorem toNat_ofInt (value : Int) : ((UInt8.ofInt value).toNat : Int) = value % 256 := by
  have hnonneg : 0 ≤ value % 256 := Int.emod_nonneg value (by decide)
  have hlt : value % 256 < 256 := Int.emod_lt_of_pos value (by decide)
  rw [UInt8.ofInt, UInt8.toNat_ofNat']
  omega

/-- There are as many bytes as are asked for. -/
@[simp] theorem length_lowBytes (length : Nat) (value : Int) :
    (lowBytes length value).length = length := by
  induction length generalizing value with
  | zero => rfl
  | succ length ih => rw [lowBytes, List.length_append, ih, List.length_singleton]

/-- The last digit counts once, and the others count 256 times what they do without it. -/
theorem ofDigits_append_singleton (bytes : List UInt8) (byte : UInt8) :
    ofDigits (bytes ++ [byte]) = 256 * ofDigits bytes + byte.toNat := by
  rw [ofDigits, List.foldl_append, List.foldl_cons, List.foldl_nil, shiftIn_eq, ofDigits]

/-- The first digit counts most. -/
theorem ofDigits_cons (byte : UInt8) (bytes : List UInt8) :
    ofDigits (byte :: bytes) = byte.toNat * 256 ^ bytes.length + ofDigits bytes := by
  induction bytes using List.reverseRecOn with
  | nil => simp [ofDigits, shiftIn_eq]
  | append_singleton bytes last ih =>
    rw [← List.cons_append, ofDigits_append_singleton, ofDigits_append_singleton, ih,
      List.length_append, List.length_singleton, Nat.pow_succ]
    ring

/-- So many digits write a number below that power of 256. -/
theorem ofDigits_lt (bytes : List UInt8) : ofDigits bytes < 256 ^ bytes.length := by
  induction bytes using List.reverseRecOn with
  | nil => exact Nat.one_pos
  | append_singleton bytes last ih =>
    have hlast : last.toNat < 256 := last.toNat_lt
    rw [ofDigits_append_singleton, List.length_append, List.length_singleton, Nat.pow_succ]
    omega

/-- A remainder is made of the last base-256 digit and the remainder of the digits before it. -/
theorem emod_pow_succ (value : Int) (length : Nat) :
    value % 256 ^ (length + 1) = 256 * (value / 256 % 256 ^ length) + value % 256 := by
  have hpos : (0 : Int) < 256 ^ length := Int.pow_pos (by decide)
  have hlast := Int.mul_ediv_add_emod value 256
  have hfirst := Int.mul_ediv_add_emod (value / 256) (256 ^ length)
  have hnonneg := Int.emod_nonneg (value / 256) (Int.ne_of_gt hpos)
  have hlt := Int.emod_lt_of_pos (value / 256) hpos
  have hsum : 256 * (value / 256 % 256 ^ length) + value % 256 +
      256 ^ (length + 1) * (value / 256 / 256 ^ length) = value := by
    calc 256 * (value / 256 % 256 ^ length) + value % 256 +
          256 ^ (length + 1) * (value / 256 / 256 ^ length)
        = 256 * (256 ^ length * (value / 256 / 256 ^ length) + value / 256 % 256 ^ length) +
            value % 256 := by ring
      _ = value := by rw [hfirst, hlast]
  refine ((Int.ediv_emod_unique (Int.pow_pos (by decide))).mpr ⟨hsum, ?_, ?_⟩).2
  · omega
  · rw [Int.pow_succ]
    omega

/-- The bytes of a number write it, up to what is cut off. After so many turns the number is the
remainder of the one that the bytes were split off. -/
theorem ofDigits_lowBytes (length : Nat) (value : Int) :
    (ofDigits (lowBytes length value) : Int) = value % 256 ^ length := by
  induction length generalizing value with
  | zero =>
    rw [Int.pow_zero, Int.emod_one]
    rfl
  | succ length ih =>
    rw [lowBytes, ofDigits_append_singleton, Int.natCast_add, Int.natCast_mul, ih, toNat_ofInt,
      shiftRight_eight, emod_pow_succ]
    rfl

/-- A number written by bytes has these bytes. -/
theorem lowBytes_ofDigits (bytes : List UInt8) :
    lowBytes bytes.length (ofDigits bytes) = bytes := by
  induction bytes using List.reverseRecOn with
  | nil => rfl
  | append_singleton bytes last ih =>
    have hlast : last.toNat < 256 := last.toNat_lt
    have hfirst :
        ((256 * ofDigits bytes + last.toNat : Nat) : Int) >>> (8 : Nat) = ofDigits bytes := by
      rw [shiftRight_eight]
      omega
    have hbyte : UInt8.ofInt ((256 * ofDigits bytes + last.toNat : Nat) : Int) = last := by
      have htoNat := toNat_ofInt ((256 * ofDigits bytes + last.toNat : Nat) : Int)
      exact UInt8.toNat.inj (by omega)
    rw [List.length_append, List.length_singleton, ofDigits_append_singleton, lowBytes, hfirst,
      hbyte, ih]

/-- A word takes eight bytes. -/
@[simp] theorem length_toBytes (value : Int) : (toBytes value).length = width :=
  length_lowBytes _ _

/-- What is written is read again, modulo the number of words. -/
theorem ofBytes_toBytes (value : Int) : ofBytes (toBytes value) = value % modulus := by
  rw [ofBytes, List.take_of_length_le (Nat.le_of_eq (length_toBytes value)), toBytes,
    ofDigits_lowBytes]
  rfl

/-- What is read from bytes is a word. -/
theorem isWord_ofBytes (bytes : List UInt8) : IsWord (ofBytes bytes) := by
  have hlength : (bytes.take width).length ≤ 8 := List.length_take_le _ _
  have hlt := ofDigits_lt (bytes.take width)
  exact isWord_natCast_iff.mpr
    (Nat.lt_of_lt_of_le hlt (Nat.pow_le_pow_right (by decide) hlength))

/-- A word is its own remainder. -/
theorem emod_modulus_of_isWord {value : Int} (hvalue : IsWord value) :
    value % modulus = value := by
  obtain ⟨hnonneg, hmax⟩ := hvalue
  simp only [max] at hmax
  simp only [modulus]
  omega

/-- Eight bytes are those of the word in them. -/
theorem toBytes_ofBytes {bytes : List UInt8} (hlength : bytes.length = width) :
    toBytes (ofBytes bytes) = bytes := by
  rw [toBytes, ofBytes, List.take_of_length_le (Nat.le_of_eq hlength), ← hlength,
    lowBytes_ofDigits]

/-- There is no byte with an index below zero or beyond the last byte. -/
theorem byteAt?_eq_none_iff {bytes : List UInt8} {index : Int} :
    byteAt? bytes index = none ↔ index < 0 ∨ (bytes.length : Int) ≤ index := by
  unfold byteAt?
  split
  · simp only [*, true_or]
  · rw [List.getElem?_eq_none_iff]
    omega

/-- Reading fails if one of the bytes is not there, whichever it is. -/
theorem readAt?_eq_none_iff {bytes : List UInt8} {offset : Int} {length : Nat} :
    readAt? bytes offset length = none ↔
      0 < length ∧ (offset < 0 ∨ (bytes.length : Int) < offset + length) := by
  induction length with
  | zero => simp [readAt?]
  | succ length ih =>
    have hturn : readAt? bytes offset (length + 1) = none ↔
        readAt? bytes offset length = none ∨ byteAt? bytes (offset + length) = none := by
      rw [readAt?]
      cases readAt? bytes offset length with
      | none => simp
      | some value => cases byteAt? bytes (offset + length) <;> simp
    rw [hturn, ih, byteAt?_eq_none_iff]
    omega

/-- Bytes that are all there are read as the number that they write. -/
theorem readAt?_of_le {bytes : List UInt8} {offset : Int} {length : Nat} (hoffset : 0 ≤ offset)
    (hend : offset + length ≤ bytes.length) :
    readAt? bytes offset length = some (ofDigits ((bytes.drop offset.toNat).take length)) := by
  induction length with
  | zero => rfl
  | succ length ih =>
    have hindex : (offset + length).toNat = offset.toNat + length := by omega
    have hin : offset.toNat + length < bytes.length := by omega
    have hbyte : bytes[offset.toNat + length]? = some (bytes.get ⟨_, hin⟩) :=
      List.getElem?_eq_getElem hin
    have hthere : byteAt? bytes (offset + length) = some (bytes.get ⟨_, hin⟩) := by
      rw [byteAt?, if_neg (by omega), hindex, hbyte]
    rw [readAt?, ih (by omega), hthere, List.take_add_one, List.getElem?_drop, hbyte,
      Option.toList_some, ofDigits_append_singleton, ← shiftIn_eq]
    rfl

/-- A word is read at an offset unless one of its eight bytes lies outside. -/
theorem ofBytesAt?_eq_none_iff {bytes : List UInt8} {offset : Int} :
    ofBytesAt? bytes offset = none ↔ offset < 0 ∨ (bytes.length : Int) < offset + 8 := by
  rw [ofBytesAt?, Option.map_eq_none_iff, readAt?_eq_none_iff]
  simp only [width]
  omega

/-- The word at an offset is the word in the first eight bytes from there on. -/
theorem ofBytesAt?_of_le {bytes : List UInt8} {offset : Int} (hoffset : 0 ≤ offset)
    (hend : offset + width ≤ bytes.length) :
    ofBytesAt? bytes offset = some (ofBytes (bytes.drop offset.toNat)) := by
  rw [ofBytesAt?, readAt?_of_le hoffset hend]
  rfl

/-- The word in eight bytes is read at their start. -/
theorem ofBytesAt?_zero {bytes : List UInt8} (hlength : bytes.length = width) :
    ofBytesAt? bytes 0 = some (ofBytes bytes) := by
  have hend : (0 : Int) + width ≤ bytes.length := by
    rw [hlength]
    decide
  exact ofBytesAt?_of_le (Int.le_refl 0) hend

/-- The first digit decides between two numbers, unless it is the same in both. -/
theorem leading_digit_lt_iff {x y low low' place : Nat} (hlow : low < place)
    (hlow' : low' < place) :
    x * place + low < y * place + low' ↔ x < y ∨ x = y ∧ low < low' := by
  rcases Nat.lt_trichotomy x y with hlt | heq | hgt
  · have hplace := Nat.mul_le_mul_right place hlt
    rw [Nat.succ_mul] at hplace
    constructor <;> omega
  · subst heq
    constructor <;> omega
  · have hplace := Nat.mul_le_mul_right place hgt
    rw [Nat.succ_mul] at hplace
    constructor <;> omega

/-- Numbers with equally many digits are ordered as their digits are in a dictionary. -/
theorem ofDigits_lt_iff {xs ys : List UInt8} (hlength : xs.length = ys.length) :
    ofDigits xs < ofDigits ys ↔ xs < ys := by
  induction xs generalizing ys with
  | nil =>
    obtain rfl := List.eq_nil_of_length_eq_zero hlength.symm
    simp
  | cons x xs ih =>
    cases ys with
    | nil => cases hlength
    | cons y ys =>
      have hothers : xs.length = ys.length := Nat.succ.inj hlength
      have hlow := ofDigits_lt xs
      rw [hothers] at hlow
      rw [ofDigits_cons, ofDigits_cons, hothers, leading_digit_lt_iff hlow (ofDigits_lt ys),
        List.cons_lt_cons_iff, ih hothers, UInt8.lt_iff_toNat_lt, UInt8.toNat_inj]

/-- Words are ordered as their bytes are in a dictionary. -/
theorem toBytes_lt_iff {a b : Int} (ha : IsWord a) (hb : IsWord b) :
    toBytes a < toBytes b ↔ a < b := by
  have hvalue {value : Int} (hword : IsWord value) : (ofDigits (toBytes value) : Int) = value := by
    rw [toBytes, ofDigits_lowBytes]
    exact emod_modulus_of_isWord hword
  have hlength : (toBytes a).length = (toBytes b).length := by simp
  have hdigits := ofDigits_lt_iff hlength
  have ha' := hvalue ha
  have hb' := hvalue hb
  rw [← hdigits]
  omega

/-- Words and bytes tell the same. A number is written in eight bytes, from which it is read again
modulo `2 ^ 64`, and eight bytes are those of the word in them. A word is read at an offset unless
one of its eight bytes lies outside, and the bytes around them have no bearing on it. The order of
words is the dictionary order of their bytes. -/
theorem bytes_convey_words :
    (∀ value : Int, (toBytes value).length = 8 ∧
      ofBytesAt? (toBytes value) 0 = some (value % 2 ^ 64)) ∧
    (∀ bytes : List UInt8, bytes.length = 8 →
      ∃ value, ofBytesAt? bytes 0 = some value ∧ toBytes value = bytes) ∧
    (∀ (bytes : List UInt8) (offset : Int),
      (ofBytesAt? bytes offset = none ↔ offset < 0 ∨ offset + 8 > bytes.length) ∧
      (0 ≤ offset → offset + 8 ≤ bytes.length →
        ofBytesAt? bytes offset = ofBytesAt? ((bytes.drop offset.toNat).take 8) 0)) ∧
    ∀ a b : Int, IsWord a → IsWord b → (a < b ↔ toBytes a < toBytes b) := by
  refine ⟨fun value => ⟨length_toBytes value, ?_⟩, fun bytes hlength => ?_,
    fun bytes offset => ⟨ofBytesAt?_eq_none_iff, fun hoffset hend => ?_⟩,
    fun a b ha hb => (toBytes_lt_iff ha hb).symm⟩
  · rw [ofBytesAt?_zero (length_toBytes value), ofBytes_toBytes]
    rfl
  · exact ⟨ofBytes bytes, ofBytesAt?_zero hlength, toBytes_ofBytes hlength⟩
  · have hlength : ((bytes.drop offset.toNat).take 8).length = width := by
      simp only [List.length_take, List.length_drop, width]
      omega
    rw [ofBytesAt?_of_le hoffset hend, ofBytesAt?_zero hlength, ofBytes, ofBytes, List.take_take]
    rfl

/-- A negative number is read as a word, a word is found behind an opcode and not beyond the last
byte, and the byte that carries over into the next decides the order. -/
theorem bytes_convey_words_of_boundary :
    ofBytesAt? (toBytes (-2)) 0 = some 18446744073709551614 ∧
    (([0, 0, 0, 0, 0, 0, 1, 0] : List UInt8).length = 8 ∧
      ∃ value, ofBytesAt? [0, 0, 0, 0, 0, 0, 1, 0] 0 = some value ∧
        toBytes value = [0, 0, 0, 0, 0, 0, 1, 0]) ∧
    (ofBytesAt? [6, 0, 0, 0, 0, 0, 0, 1, 0] 1 = ofBytesAt? [0, 0, 0, 0, 0, 0, 1, 0] 0 ∧
      ofBytesAt? [6, 0, 0, 0, 0, 0, 0, 1, 0] 2 = none) ∧
    (IsWord 255 ∧ IsWord 256 ∧ toBytes 255 < toBytes 256) := by
  obtain ⟨hread, hwritten, hoffset, horder⟩ := bytes_convey_words
  have hword : IsWord 255 := by decide
  have hnext : IsWord 256 := by decide
  refine ⟨(hread (-2)).2, ⟨by decide, hwritten _ (by decide)⟩, ⟨?_, ?_⟩, hword, hnext, ?_⟩
  · exact (hoffset [6, 0, 0, 0, 0, 0, 0, 1, 0] 1).2 (by decide) (by decide)
  · exact (hoffset [6, 0, 0, 0, 0, 0, 0, 1, 0] 2).1.mpr (by decide)
  · exact (horder 255 256 hword hnext).mp (by decide)

end WordMachine.Word
