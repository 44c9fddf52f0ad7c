import Mathlib.Algebra.Group.Nat.Defs
import WordMachine.Execution

/-!
# Operations that stay within the words

The arithmetic of the machine works on unbounded integers and compares a result
with one end of the word range only. On words that one comparison is enough: what
an operation gives for two words is again a word.
-/

namespace WordMachine

/-- A natural number is a word exactly below `2 ^ 64`. -/
theorem isWord_natCast_iff {n : Nat} : IsWord (n : Int) ↔ n < 2 ^ 64 := by
  simp only [IsWord, Word.max]
  omega

/-- The natural number behind a word is below `2 ^ 64`. -/
theorem IsWord.toNat_lt {a : Int} (ha : IsWord a) : a.toNat < 2 ^ 64 := by
  obtain ⟨hnonneg, hmax⟩ := ha
  simp only [Word.max] at hmax
  omega

/-- Zero is a word. -/
theorem isWord_zero : IsWord 0 := by decide

namespace Word

/-- A sum that does not fail is a word if its terms are not negative. -/
theorem isWord_of_add? {a b value : Int} (ha : IsWord a) (hb : IsWord b)
    (h : add? a b = some value) : IsWord value := by
  simp only [add?, Option.ite_none_left_eq_some, Option.some.injEq] at h
  obtain ⟨hle, rfl⟩ := h
  have hnonneg : 0 ≤ a + b := Int.add_nonneg ha.1 hb.1
  exact ⟨hnonneg, by omega⟩

/-- A difference that does not fail lies between zero and its first term. -/
theorem isWord_of_sub? {a b value : Int} (ha : IsWord a) (hb : IsWord b)
    (h : sub? a b = some value) : IsWord value := by
  simp only [sub?, Option.ite_none_left_eq_some, Option.some.injEq] at h
  obtain ⟨hle, rfl⟩ := h
  obtain ⟨_, hmax⟩ := ha
  obtain ⟨hnonneg, _⟩ := hb
  exact ⟨by omega, by omega⟩

/-- A product that does not fail is a word if its factors are not negative. -/
theorem isWord_of_mul? {a b value : Int} (ha : IsWord a) (hb : IsWord b)
    (h : mul? a b = some value) : IsWord value := by
  simp only [mul?, Option.ite_none_left_eq_some, Option.some.injEq] at h
  obtain ⟨hle, rfl⟩ := h
  have hnonneg : 0 ≤ a * b := Int.mul_nonneg ha.1 hb.1
  exact ⟨hnonneg, by omega⟩

/-- A quotient of words is no larger than the number that is divided. -/
theorem isWord_of_div? {a b value : Int} (ha : IsWord a) (hb : IsWord b)
    (h : div? a b = some value) : IsWord value := by
  simp only [div?, Option.ite_none_left_eq_some, Option.some.injEq] at h
  obtain ⟨_, rfl⟩ := h
  have hnonneg : 0 ≤ a.tdiv b := Int.tdiv_nonneg ha.1 hb.1
  have hle : a.tdiv b ≤ a := Int.tdiv_le_self b ha.1
  exact ⟨hnonneg, Int.le_trans hle ha.2⟩

/-- A remainder of words is no larger than the number that is divided. -/
theorem isWord_of_mod? {a b value : Int} (ha : IsWord a) (hb : IsWord b)
    (h : mod? a b = some value) : IsWord value := by
  simp only [mod?, Option.ite_none_left_eq_some, Option.some.injEq] at h
  obtain ⟨_, rfl⟩ := h
  have hnonneg : 0 ≤ a.tmod b := Int.tmod_nonneg b ha.1
  have hquotient : 0 ≤ b * a.tdiv b := Int.mul_nonneg hb.1 (Int.tdiv_nonneg ha.1 hb.1)
  have hsum : a.tmod b + b * a.tdiv b = a := Int.tmod_add_mul_tdiv a b
  exact ⟨hnonneg, Int.le_trans (by omega) ha.2⟩

/-- A comparison gives zero or one. -/
theorem isWord_equal (a b : Int) : IsWord (equal a b) := by
  unfold equal
  split <;> decide

/-- The common bits of two words are a word. -/
theorem isWord_and {a : Int} (ha : IsWord a) (b : Int) : IsWord (and a b) :=
  isWord_natCast_iff.mpr (Nat.lt_of_le_of_lt Nat.and_le_left ha.toNat_lt)

/-- The joint bits of two words are a word. -/
theorem isWord_or {a b : Int} (ha : IsWord a) (hb : IsWord b) : IsWord (or a b) :=
  isWord_natCast_iff.mpr (Nat.or_lt_two_pow ha.toNat_lt hb.toNat_lt)

/-- The differing bits of two words are a word. -/
theorem isWord_xor {a b : Int} (ha : IsWord a) (hb : IsWord b) : IsWord (xor a b) :=
  isWord_natCast_iff.mpr (Nat.xor_lt_two_pow ha.toNat_lt hb.toNat_lt)

/-- A complement is a word, whatever it is taken of. -/
theorem isWord_complement (a : Int) : IsWord (complement a) := by
  have hpos : (0 : Int) < modulus := by decide
  have hnonneg := Int.emod_nonneg (-1 - a) (Int.ne_of_gt hpos)
  have hlt := Int.emod_lt_of_pos (-1 - a) hpos
  refine ⟨hnonneg, ?_⟩
  simp only [complement, max, modulus] at hlt ⊢
  omega

end Word

/-- An instruction whose literal, if it has one, is a word. -/
def Instruction.InRange : Instruction → Prop
  | set literal => IsWord literal
  | plain _ => True
  | unknown _ => True

instance : DecidablePred Instruction.InRange
  | .set literal => inferInstanceAs (Decidable (IsWord literal))
  | .plain _ => isTrue trivial
  | .unknown _ => isTrue trivial

/-- What a binary operation leaves of two words is a word. -/
theorem BinaryOp.isWord_of_apply? {op : BinaryOp} {a b value : Int} (ha : IsWord a)
    (hb : IsWord b) (h : op.apply? a b = some value) : IsWord value := by
  cases op with
  | add => exact Word.isWord_of_add? ha hb h
  | sub => exact Word.isWord_of_sub? ha hb h
  | mul => exact Word.isWord_of_mul? ha hb h
  | div => exact Word.isWord_of_div? ha hb h
  | mod => exact Word.isWord_of_mod? ha hb h
  | cmp =>
    obtain rfl := Option.some.inj h
    exact Word.isWord_equal a b
  | and =>
    obtain rfl := Option.some.inj h
    exact Word.isWord_and ha b
  | or =>
    obtain rfl := Option.some.inj h
    exact Word.isWord_or ha hb
  | xor =>
    obtain rfl := Option.some.inj h
    exact Word.isWord_xor ha hb

end WordMachine
