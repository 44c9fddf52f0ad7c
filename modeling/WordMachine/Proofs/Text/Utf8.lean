import Mathlib.Tactic.SplitIfs
import WordMachine.Text.Utf8

/-!
# Reading back UTF-8

A text that is written as UTF-8 is read back as it was. Every character is read off its own
bytes: the first byte tells how many follow, and the bounds on the second one, which keep out
longer forms than needed and surrogates, admit every character that there is.
-/

namespace WordMachine.Text.Utf8

/-- The bytes of an array as a list are those that it holds. -/
theorem toList_eq_toList_data (bytes : ByteArray) : bytes.toList = bytes.data.toList := by
  have hloop (i : Nat) (read : List UInt8) :
      ByteArray.toList.loop bytes i read = read.reverse ++ bytes.data.toList.drop i := by
    fun_induction ByteArray.toList.loop bytes i read with
    | case1 i read hlt ih =>
      have hindex : i < bytes.data.toList.length := hlt
      have hbyte : bytes.get! i = bytes.data.toList[i] := by
        rw [Array.getElem_toList]
        exact getElem!_pos bytes.data i hlt
      rw [ih, List.reverse_cons, List.append_assoc, hbyte, List.singleton_append,
        ← List.drop_eq_getElem_cons hindex]
    | case2 i read hge =>
      have hlength : bytes.data.toList.length ≤ i := Nat.le_of_not_lt hge
      rw [List.drop_eq_nil_of_le hlength, List.append_nil]
  rw [ByteArray.toList, hloop, List.reverse_nil, List.nil_append, List.drop_zero]

/-- The bytes of a text are those of its characters. -/
theorem toList_toUTF8 (text : String) :
    text.toUTF8.toList = text.toList.flatMap String.utf8EncodeChar := by
  have hbytes : text.toUTF8 = (text.toList.flatMap String.utf8EncodeChar).toByteArray := by
    rw [String.toUTF8_eq_toByteArray]
    exact (congrArg String.toByteArray String.ofList_toList).symm.trans String.toByteArray_ofList
  rw [hbytes, toList_eq_toList_data, List.toList_data_toByteArray]

namespace Reader

/-- How a first byte is taken, by its value. -/
theorem start_ofNat (reader : Reader) {n : Nat} (hn : n < 256) :
    reader.start (UInt8.ofNat n) =
      if n < 0x80 then reader.emit (Char.ofNat n)
      else if n < 0xC2 then reader.emit replacement
      else if n < 0xE0 then reader.await { bits := n - 0xC0, missing := 0 }
      else if n = 0xE0 then reader.await { bits := 0, missing := 1, low := 0xA0 }
      else if n = 0xED then reader.await { bits := 0xD, missing := 1, high := 0x9F }
      else if n < 0xF0 then reader.await { bits := n - 0xE0, missing := 1 }
      else if n = 0xF0 then reader.await { bits := 0, missing := 2, low := 0x90 }
      else if n < 0xF4 then reader.await { bits := n - 0xF0, missing := 2 }
      else if n = 0xF4 then reader.await { bits := 4, missing := 2, high := 0x8F }
      else reader.emit replacement := by
  have hvalue : (UInt8.ofNat n).toNat = n := UInt8.toNat_ofNat_of_lt' hn
  simp only [start, UInt8.lt_iff_toNat_lt, ← UInt8.toNat_inj, hvalue]
  rfl

/-- A byte that may follow adds its bits to an unfinished sequence, and the last one completes the
character. -/
theorem feed_ofNat (chars : List Char) (pending : Pending) {n : Nat} (hn : n < 64)
    (hlow : pending.low.toNat ≤ n + 0x80) (hhigh : n + 0x80 ≤ pending.high.toNat) :
    feed { chars, pending := some pending } (UInt8.ofNat (n + 0x80)) =
      match pending.missing with
      | 0 => { chars := Char.ofNat (64 * pending.bits + n) :: chars }
      | missing + 1 =>
        { chars, pending := some { bits := 64 * pending.bits + n, missing } } := by
  have hvalue : (UInt8.ofNat (n + 0x80)).toNat = n + 0x80 :=
    UInt8.toNat_ofNat_of_lt' (by simp only [UInt8.size]; omega)
  have hfits : pending.low ≤ UInt8.ofNat (n + 0x80) ∧ UInt8.ofNat (n + 0x80) ≤ pending.high := by
    rw [UInt8.le_iff_toNat_le, UInt8.le_iff_toNat_le, hvalue]
    exact ⟨hlow, hhigh⟩
  simp only [feed, if_pos hfits, hvalue, Nat.add_sub_cancel]
  cases pending.missing with
  | zero => rfl
  | succ missing => rfl

/-- The first of three bytes leaves a sequence open that the second one may follow. The numbers
without a character lie where the second byte would be too large. -/
theorem exists_pending_of_three (chars : List Char) {v : Nat} (hlow : 0x7FF < v)
    (hhigh : v ≤ 0xFFFF) (hvalid : v < 0xD800 ∨ 0xDFFF < v) :
    ∃ low high : UInt8, low.toNat ≤ v / 64 % 64 + 0x80 ∧ v / 64 % 64 + 0x80 ≤ high.toNat ∧
      start { chars } (UInt8.ofNat (v / 4096 + 0xE0)) =
        { chars, pending := some { bits := v / 4096, missing := 1, low, high } } := by
  rw [start_ofNat _ (by omega), if_neg (by omega), if_neg (by omega), if_neg (by omega)]
  by_cases hshort : v / 4096 = 0
  · refine ⟨0xA0, 0xBF, ?_, ?_, ?_⟩
    · change 0xA0 ≤ _
      omega
    · change _ ≤ 0xBF
      omega
    · rw [if_pos (by omega), hshort]
      rfl
  · rw [if_neg (by omega)]
    by_cases hsurrogate : v / 4096 = 0xD
    · refine ⟨0x80, 0x9F, Nat.le_add_left _ _, ?_, ?_⟩
      · change _ ≤ 0x9F
        omega
      · rw [if_pos (by omega), hsurrogate]
        rfl
    · refine ⟨0x80, 0xBF, Nat.le_add_left _ _, ?_, ?_⟩
      · change _ ≤ 0xBF
        omega
      · rw [if_neg (by omega), if_pos (by omega), Nat.add_sub_cancel]
        rfl

/-- So does the first of four bytes. -/
theorem exists_pending_of_four (chars : List Char) {v : Nat} (hlow : 0xFFFF < v)
    (hhigh : v < 0x110000) :
    ∃ low high : UInt8, low.toNat ≤ v / 4096 % 64 + 0x80 ∧ v / 4096 % 64 + 0x80 ≤ high.toNat ∧
      start { chars } (UInt8.ofNat (v / 262144 + 0xF0)) =
        { chars, pending := some { bits := v / 262144, missing := 2, low, high } } := by
  rw [start_ofNat _ (by omega), if_neg (by omega), if_neg (by omega), if_neg (by omega),
    if_neg (by omega), if_neg (by omega), if_neg (by omega)]
  by_cases hshort : v / 262144 = 0
  · refine ⟨0x90, 0xBF, ?_, ?_, ?_⟩
    · change 0x90 ≤ _
      omega
    · change _ ≤ 0xBF
      omega
    · rw [if_pos (by omega), hshort]
      rfl
  · rw [if_neg (by omega)]
    by_cases hlast : v / 262144 = 4
    · refine ⟨0x80, 0x8F, Nat.le_add_left _ _, ?_, ?_⟩
      · change _ ≤ 0x8F
        omega
      · rw [if_neg (by omega), if_pos (by omega), hlast]
        rfl
    · refine ⟨0x80, 0xBF, Nat.le_add_left _ _, ?_, ?_⟩
      · change _ ≤ 0xBF
        omega
      · rw [if_pos (by omega), Nat.add_sub_cancel]
        rfl

/-- The byte that adds six bits to an unfinished sequence. -/
def continuation (n : Nat) : UInt8 :=
  UInt8.ofNat (n + 0x80)

/-- As many bytes as are missing complete the character. Only the first of them is bounded more
closely than by its six bits. -/
theorem foldl_feed_of_pending (chars : List Char) (pending : Pending) {n : Nat} {rest : List Nat}
    (hmissing : pending.missing = rest.length) (hn : n < 64)
    (hlow : pending.low.toNat ≤ n + 0x80) (hhigh : n + 0x80 ≤ pending.high.toNat)
    (hrest : ∀ k ∈ rest, k < 64) :
    ((n :: rest).map continuation).foldl feed { chars, pending := some pending } =
      { chars := Char.ofNat (rest.foldl (64 * · + ·) (64 * pending.bits + n)) :: chars } := by
  induction rest generalizing pending n with
  | nil =>
    rw [List.map_singleton, List.foldl_cons, List.foldl_nil, continuation,
      feed_ofNat chars pending hn hlow hhigh, hmissing]
    rfl
  | cons k rest ih =>
    have hk : k < 64 := hrest k List.mem_cons_self
    rw [List.map_cons, List.foldl_cons, continuation, feed_ofNat chars pending hn hlow hhigh,
      hmissing]
    refine ih { bits := 64 * pending.bits + n, missing := rest.length } rfl hk
      (Nat.le_add_left _ _) ?_ fun other hother => hrest other (List.mem_cons_of_mem _ hother)
    change _ ≤ 0xBF
    omega

/-- With no sequence open, the first byte is taken as such. -/
theorem foldl_feed_cons (chars : List Char) (byte : UInt8) (bytes : List UInt8) :
    (byte :: bytes).foldl feed { chars } = bytes.foldl feed (start { chars } byte) := rfl

/-- A character is read off its bytes. -/
theorem foldl_feed_utf8EncodeChar (chars : List Char) (c : Char) :
    (String.utf8EncodeChar c).foldl feed { chars } = { chars := c :: chars } := by
  have hchar : Char.ofNat c.toNat = c := Char.ofNat_toNat c
  have hvalid : c.toNat < 0xD800 ∨ 0xDFFF < c.toNat ∧ c.toNat < 0x110000 := c.valid
  have hvalue : c.val.toNat = c.toNat := rfl
  have hmod (n : Nat) : n % 64 < 64 := Nat.mod_lt _ (by decide)
  generalize c.toNat = v at hchar hvalid hvalue
  unfold String.utf8EncodeChar
  simp only [hvalue]
  -- The cases are those of the encoding, by the number of bytes.
  split_ifs with hone htwo hthree
  · rw [foldl_feed_cons, start_ofNat _ (by omega), if_pos (by omega), hchar]
    rfl
  · have hlead : v / 64 % 0x20 = v / 64 := Nat.mod_eq_of_lt (by omega)
    have hbits : 64 * (v / 64) + v % 64 = v := Nat.div_add_mod v 64
    have hhigh : v % 64 + 0x80 ≤ 0xBF := by omega
    have hstart : start { chars } (UInt8.ofNat (v / 64 + 0xC0)) =
        { chars, pending := some { bits := v / 64, missing := 0 } } := by
      rw [start_ofNat _ (by omega), if_neg (by omega), if_neg (by omega), if_pos (by omega),
        Nat.add_sub_cancel]
      rfl
    have hbytes : [UInt8.ofNat (v % 0x40 + 0x80)] = [v % 64].map continuation := rfl
    rw [foldl_feed_cons, hlead, hstart, hbytes,
      foldl_feed_of_pending chars _ rfl (hmod _) (Nat.le_add_left _ _) hhigh (by simp)]
    simp only [List.foldl_nil, hbits, hchar]
  · have hlead : v / 4096 % 0x10 = v / 4096 := Nat.mod_eq_of_lt (by omega)
    have hbits : 64 * (64 * (v / 4096) + v / 64 % 64) + v % 64 = v := by omega
    obtain ⟨low, high, hlow, hhigh, hstart⟩ :=
      exists_pending_of_three chars (by omega) hthree (hvalid.imp_right And.left)
    have hbytes : [UInt8.ofNat (v / 64 % 0x40 + 0x80), UInt8.ofNat (v % 0x40 + 0x80)] =
        [v / 64 % 64, v % 64].map continuation := rfl
    rw [foldl_feed_cons, hlead, hstart, hbytes,
      foldl_feed_of_pending chars _ rfl (hmod _) hlow hhigh (by simp [hmod])]
    simp only [List.foldl_cons, List.foldl_nil, hbits, hchar]
  · have hlead : v / 262144 % 0x08 = v / 262144 := Nat.mod_eq_of_lt (by omega)
    have hbits : 64 * (64 * (64 * (v / 262144) + v / 4096 % 64) + v / 64 % 64) + v % 64 = v := by
      omega
    have hbound : v < 0x110000 := by omega
    obtain ⟨low, high, hlow, hhigh, hstart⟩ :=
      exists_pending_of_four chars (Nat.lt_of_not_le hthree) hbound
    have hbytes : [UInt8.ofNat (v / 4096 % 0x40 + 0x80), UInt8.ofNat (v / 64 % 0x40 + 0x80),
        UInt8.ofNat (v % 0x40 + 0x80)] = [v / 4096 % 64, v / 64 % 64, v % 64].map continuation := rfl
    rw [foldl_feed_cons, hlead, hstart, hbytes,
      foldl_feed_of_pending chars _ rfl (hmod _) hlow hhigh (by simp [hmod])]
    simp only [List.foldl_cons, List.foldl_nil, hbits, hchar]

/-- The characters of a text are read off its bytes, one after another. -/
theorem foldl_feed_flatMap (chars text : List Char) :
    (text.flatMap String.utf8EncodeChar).foldl feed { chars } =
      { chars := text.reverse ++ chars } := by
  induction text generalizing chars with
  | nil => rfl
  | cons c text ih =>
    rw [List.flatMap_cons, List.foldl_append, foldl_feed_utf8EncodeChar, ih, List.reverse_cons,
      List.append_assoc, List.singleton_append]

end Reader

/-- A text that is written as UTF-8 is read back as it was. -/
theorem decode_toUTF8 (text : String) : decode text.toUTF8.toList = text := by
  rw [decode, toList_toUTF8, Reader.foldl_feed_flatMap, List.append_nil]
  change String.ofList text.toList.reverse.reverse = text
  rw [List.reverse_reverse, String.ofList_toList]

end WordMachine.Text.Utf8
