import WordMachine.Proofs.Execution.Effect
import WordMachine.Proofs.Word.Bytes

/-!
# Exact arithmetic on words

A sum, a difference and a product are compared with one end of the word range only. On words the
other end is out of reach, so they fail exactly if the value is no word, and the inverse laws of
arithmetic hold without a failure on the way. The complement is computed as a remainder. Its bits
are those of the number, flipped in the 64 places of a word and dropped elsewhere, and from there
it obeys the laws of bits.
-/

namespace WordMachine.Word

/-- A result that is the exact value if this is a word, and is missing if it is not. -/
def IsExact (result : Option Int) (value : Int) : Prop :=
  (result = none ↔ value < 0 ∨ 2 ^ 64 - 1 < value) ∧
    (0 ≤ value → value ≤ 2 ^ 64 - 1 → result = some value)

/-- A value is exact behind a check that fails outside the range and nowhere else. -/
theorem isExact_ite {fails : Prop} [Decidable fails] {value : Int}
    (hfails : fails ↔ value < 0 ∨ 2 ^ 64 - 1 < value) :
    IsExact (if fails then none else some value) value := by
  refine ⟨?_, fun hnonneg hmax => if_neg ?_⟩
  · rw [← hfails]
    simp
  · rw [hfails]
    omega

/-- There is an exact result if the value is a word. -/
theorem IsExact.eq_some {result : Option Int} {value : Int} (hexact : IsExact result value)
    (hvalue : IsWord value) : result = some value :=
  hexact.2 hvalue.1 hvalue.2

/-- An exact result is the value. -/
theorem IsExact.eq_of_eq_some {result : Option Int} {value c : Int} (hexact : IsExact result value)
    (h : result = some c) : c = value := by
  have hrange : ¬(value < 0 ∨ 2 ^ 64 - 1 < value) := by
    rw [← hexact.1, h]
    simp
  have hvalue := hexact.2 (by omega) (by omega)
  rw [h] at hvalue
  exact Option.some.inj hvalue

/-- If a value is not negative, it is enough to compare it with the largest word. -/
theorem isExact_of_nonneg {value : Int} (hnonneg : 0 ≤ value) :
    IsExact (if max < value then none else some value) value := by
  refine isExact_ite ?_
  simp only [max]
  omega

/-- A sum of words is exact. -/
theorem isExact_add? {a b : Int} (ha : IsWord a) (hb : IsWord b) : IsExact (add? a b) (a + b) :=
  isExact_of_nonneg (Int.add_nonneg ha.1 hb.1)

/-- A product of words is exact. -/
theorem isExact_mul? {a b : Int} (ha : IsWord a) (hb : IsWord b) : IsExact (mul? a b) (a * b) :=
  isExact_of_nonneg (Int.mul_nonneg ha.1 hb.1)

/-- A difference of words is exact. It is at most the first of them, so it is enough to compare them
with each other. -/
theorem isExact_sub? {a b : Int} (ha : IsWord a) (hb : IsWord b) :
    IsExact (sub? a b) (a - b) := by
  obtain ⟨_, hmax⟩ := ha
  obtain ⟨hnonneg, _⟩ := hb
  simp only [max] at hmax
  exact isExact_ite (by omega)

/-- What was added can be taken away again. -/
theorem sub?_of_add? {a b c : Int} (ha : IsWord a) (hb : IsWord b) (h : add? a b = some c) :
    sub? c b = some a := by
  have hc : IsWord c := isWord_of_add? ha hb h
  obtain rfl := (isExact_add? ha hb).eq_of_eq_some h
  have hdifference : a + b - b = a := Int.add_sub_cancel a b
  rw [(isExact_sub? hc hb).eq_some (by rwa [hdifference]), hdifference]

/-- A product is divided by one of its factors without a remainder, which leaves the other. -/
theorem div?_mod?_of_mul? {a b c : Int} (ha : IsWord a) (hb : IsWord b) (h : mul? a b = some c)
    (hdivisor : b ≠ 0) : div? c b = some a ∧ mod? c b = some 0 := by
  obtain rfl := (isExact_mul? ha hb).eq_of_eq_some h
  rw [div?, mod?, if_neg hdivisor, if_neg hdivisor, Int.mul_tdiv_cancel a hdivisor,
    Int.mul_tmod_left]
  exact ⟨rfl, rfl⟩

/-- Quotient and remainder give the number back. The product on the way is at most the number that
is divided, so neither the product nor the sum fails. -/
theorem exists_quotient_remainder {a b : Int} (ha : IsWord a) (hb : IsWord b) (hdivisor : b ≠ 0) :
    ∃ q r p, div? a b = some q ∧ mod? a b = some r ∧ mul? q b = some p ∧ add? p r = some a ∧
      r < b := by
  have hquotient : div? a b = some (a.tdiv b) := if_neg hdivisor
  have hremainder : mod? a b = some (a.tmod b) := if_neg hdivisor
  have hq : IsWord (a.tdiv b) := isWord_of_div? ha hb hquotient
  have hr : IsWord (a.tmod b) := isWord_of_mod? ha hb hremainder
  have hsum : a.tdiv b * b + a.tmod b = a := Int.tdiv_mul_add_tmod a b
  have hp : IsWord (a.tdiv b * b) := by
    have hle : a.tdiv b * b ≤ a.tdiv b * b + a.tmod b := Int.le_add_of_nonneg_right hr.1
    rw [hsum] at hle
    exact ⟨Int.mul_nonneg hq.1 hb.1, Int.le_trans hle ha.2⟩
  refine ⟨_, _, _, hquotient, hremainder, (isExact_mul? hq hb).eq_some hp, ?_, ?_⟩
  · rw [(isExact_add? hp hr).eq_some (by rwa [hsum]), hsum]
  · exact Int.tmod_lt_of_pos a (Int.lt_iff_le_and_ne.mpr ⟨hb.1, hdivisor.symm⟩)

/-- Numbers that are not negative are equal if all their bits are. -/
theorem eq_of_testBit_eq {a b : Int} (ha : 0 ≤ a) (hb : 0 ≤ b)
    (h : ∀ i, a.testBit i = b.testBit i) : a = b := by
  obtain ⟨m, rfl⟩ := Int.eq_ofNat_of_zero_le ha
  obtain ⟨n, rfl⟩ := Int.eq_ofNat_of_zero_le hb
  exact congrArg Int.ofNat (Nat.eq_of_testBit_eq h)

/-- A word has its bits in the 64 places of a word. -/
theorem testBit_of_isWord {a : Int} (ha : IsWord a) (i : Nat) :
    a.testBit i = (decide (i < 64) && a.testBit i) := by
  obtain ⟨n, rfl⟩ := Int.eq_ofNat_of_zero_le ha.1
  have hlt : n < 2 ^ 64 := isWord_natCast_iff.mp ha
  have hbits := Nat.testBit_mod_two_pow n 64 i
  rwa [Nat.mod_eq_of_lt hlt] at hbits

/-- The largest word has a bit in each of these places. -/
theorem testBit_max (i : Nat) : Int.testBit max i = decide (i < 64) :=
  Nat.testBit_two_pow_sub_one 64 i

/-- The complement flips the bits in the places of a word and drops all others. A negative number
is the flipped form of a natural number, so that its complement has the bits of that number. -/
theorem testBit_complement (a : Int) (i : Nat) :
    (complement a).testBit i = (decide (i < 64) && !a.testBit i) := by
  cases a with
  | ofNat n =>
    have hlow : n % 2 ^ 64 < 2 ^ 64 := Nat.mod_lt n (by decide)
    have hvalue : complement (Int.ofNat n) = Int.ofNat (2 ^ 64 - (n % 2 ^ 64 + 1)) := by
      simp only [complement, modulus, Int.ofNat_eq_natCast]
      omega
    rw [hvalue, Int.testBit, Int.testBit, Nat.testBit_two_pow_sub_succ hlow,
      Nat.testBit_mod_two_pow]
    cases decide (i < 64) <;> rfl
  | negSucc n =>
    have hvalue : complement (Int.negSucc n) = Int.ofNat (n % 2 ^ 64) := by
      simp only [complement, modulus, Int.negSucc_eq, Int.ofNat_eq_natCast]
      omega
    rw [hvalue, Int.testBit, Int.testBit, Nat.testBit_mod_two_pow, Bool.not_not]

/-- The bits that two words have in common are taken as of any two integers. -/
theorem and_eq_land {a b : Int} (ha : IsWord a) (hb : IsWord b) : and a b = Int.land a b :=
  @BinaryOp.eq_value_of_apply? .and a b _ ha hb rfl

/-- The bits that at least one of two words has are taken as of any two integers. -/
theorem or_eq_lor {a b : Int} (ha : IsWord a) (hb : IsWord b) : or a b = Int.lor a b :=
  @BinaryOp.eq_value_of_apply? .or a b _ ha hb rfl

/-- No number is negative once it is masked by one that is not. -/
theorem land_nonneg (a : Int) {b : Int} (hb : 0 ≤ b) : 0 ≤ Int.land a b := by
  obtain ⟨n, rfl⟩ := Int.eq_ofNat_of_zero_le hb
  cases a with
  | ofNat m => exact Int.natCast_nonneg _
  | negSucc m => exact Int.natCast_nonneg _

/-- The remainder is the flipped number, masked by the largest word. -/
theorem complement_eq_land (a : Int) : complement a = Int.land (Int.lnot a) max := by
  refine eq_of_testBit_eq (isWord_complement a).1 (land_nonneg _ (by decide)) fun i => ?_
  rw [testBit_complement, Int.testBit_land, Int.testBit_lnot, testBit_max, Bool.and_comm]

/-- Two complements leave the remainder of a number. -/
theorem complement_complement (a : Int) : complement (complement a) = a % modulus := by
  simp only [complement, modulus]
  omega

/-- The complement of a word is where it differs from the largest word. -/
theorem xor_max {a : Int} (ha : IsWord a) : xor a max = complement a := by
  have hmax : IsWord max := by decide
  refine eq_of_testBit_eq (isWord_xor ha hmax).1 (isWord_complement a).1 fun i => ?_
  rw [@BinaryOp.eq_value_of_apply? .xor a max _ ha hmax rfl, BinaryOp.value, Int.testBit_lxor,
    testBit_of_isWord ha, testBit_max, testBit_complement]
  cases decide (i < 64) <;> simp

/-- De Morgan's law for the bits that two integers have in common. -/
theorem complement_land (a b : Int) :
    complement (Int.land a b) = or (complement a) (complement b) := by
  have ha := isWord_complement a
  have hb := isWord_complement b
  refine eq_of_testBit_eq (isWord_complement _).1 (isWord_or ha hb).1 fun i => ?_
  rw [or_eq_lor ha hb, Int.testBit_lor, testBit_complement, testBit_complement,
    testBit_complement, Int.testBit_land, Bool.not_and, Bool.and_or_distrib_left]

/-- De Morgan's law for the bits that at least one of two integers has. -/
theorem complement_lor (a b : Int) :
    complement (Int.lor a b) = and (complement a) (complement b) := by
  have ha := isWord_complement a
  have hb := isWord_complement b
  refine eq_of_testBit_eq (isWord_complement _).1 (isWord_and ha _).1 fun i => ?_
  rw [and_eq_land ha hb, Int.testBit_land, testBit_complement, testBit_complement,
    testBit_complement, Int.testBit_lor, Bool.not_or]
  cases decide (i < 64) <;> rfl

/-- Arithmetic on words is exact and does not leave them. Sums, differences and products fail
exactly if their value is no word; quotients and remainders fail for a zero divisor only, and give
the number back that was divided. Differences undo sums, and quotients undo products. The complement
takes any integer to a word, whose 64 bits are flipped. On words it is its own inverse, and it obeys
De Morgan's laws. -/
theorem arithmetic_exact_on_words :
    (∀ a b : Int, IsWord a → IsWord b →
      IsExact (add? a b) (a + b) ∧ IsExact (sub? a b) (a - b) ∧ IsExact (mul? a b) (a * b) ∧
      (div? a b = none ↔ b = 0) ∧ (mod? a b = none ↔ b = 0) ∧
      (b ≠ 0 → ∃ q r p, div? a b = some q ∧ mod? a b = some r ∧ mul? q b = some p ∧
        add? p r = some a ∧ r < b) ∧
      (∀ c, add? a b = some c → sub? c b = some a) ∧
      (∀ c, mul? a b = some c → b ≠ 0 → div? c b = some a ∧ mod? c b = some 0) ∧
      ∀ (op : BinaryOp) (c : Int), op.apply? a b = some c → IsWord c) ∧
    (∀ a : Int, complement a = (-1 - a) % 2 ^ 64 ∧
      complement a = Int.land (Int.lnot a) (2 ^ 64 - 1) ∧ IsWord (complement a)) ∧
    (∀ a : Int, IsWord a → complement (complement a) = a ∧
      BinaryOp.apply? .xor a (2 ^ 64 - 1) = some (complement a)) ∧
    (∀ a b : Int, IsWord a → IsWord b →
      (∃ c, BinaryOp.apply? .and a b = some c ∧
        BinaryOp.apply? .or (complement a) (complement b) = some (complement c)) ∧
      ∃ c, BinaryOp.apply? .or a b = some c ∧
        BinaryOp.apply? .and (complement a) (complement b) = some (complement c)) ∧
    ∀ a b : Int, complement (Int.land a b) = or (complement a) (complement b) ∧
      complement (Int.lor a b) = and (complement a) (complement b) := by
  refine ⟨fun a b ha hb => ⟨isExact_add? ha hb, isExact_sub? ha hb, isExact_mul? ha hb,
      by simp [div?], by simp [mod?], exists_quotient_remainder ha hb,
      fun _ => sub?_of_add? ha hb, fun _ => div?_mod?_of_mul? ha hb,
      fun _ _ => BinaryOp.isWord_of_apply? ha hb⟩,
    fun a => ⟨rfl, complement_eq_land a, isWord_complement a⟩,
    fun a ha => ⟨?_, congrArg some (xor_max ha)⟩,
    fun a b ha hb => ⟨⟨and a b, rfl, ?_⟩, or a b, rfl, ?_⟩,
    fun a b => ⟨complement_land a b, complement_lor a b⟩⟩
  · rw [complement_complement, emod_modulus_of_isWord ha]
  · rw [and_eq_land ha hb, complement_land]
    rfl
  · rw [or_eq_lor ha hb, complement_lor]
    rfl

/-- The largest word is still a sum and a product and leads back to their terms, it has a quotient
with a remainder, and one more than it is no word. A negative number has a word for its
complement. -/
theorem arithmetic_exact_on_words_of_largest :
    (IsWord 18446744073709551605 ∧ IsWord 10 ∧
      add? 18446744073709551605 10 = some 18446744073709551615 ∧
      sub? 18446744073709551615 10 = some 18446744073709551605) ∧
    (IsWord 4294967297 ∧ IsWord 4294967295 ∧
      mul? 4294967297 4294967295 = some 18446744073709551615 ∧
      div? 18446744073709551615 4294967295 = some 4294967297 ∧
      mod? 18446744073709551615 4294967295 = some 0) ∧
    (IsWord 18446744073709551615 ∧ add? 18446744073709551615 1 = none ∧
      ∃ q r p, div? 18446744073709551615 10 = some q ∧ mod? 18446744073709551615 10 = some r ∧
        mul? q 10 = some p ∧ add? p r = some 18446744073709551615 ∧ r < 10) ∧
    IsWord (complement (-3)) ∧
    BinaryOp.apply? .xor 10 (2 ^ 64 - 1) = some (complement 10) ∧
    ∃ c, BinaryOp.apply? .and 10 18446744073709551605 = some c ∧
      BinaryOp.apply? .or (complement 10) (complement 18446744073709551605) =
        some (complement c) := by
  obtain ⟨harithmetic, hcomplement, hinvolution, hlaws, _⟩ := arithmetic_exact_on_words
  have hbelow : IsWord 18446744073709551605 := by decide
  have hten : IsWord 10 := by decide
  have hfactor : IsWord 4294967297 := by decide
  have hfactor' : IsWord 4294967295 := by decide
  have hlargest : IsWord 18446744073709551615 := by decide
  obtain ⟨_, _, _, _, _, _, hdifference, _⟩ := harithmetic _ _ hbelow hten
  obtain ⟨_, _, _, _, _, _, _, hquotient, _⟩ := harithmetic _ _ hfactor hfactor'
  obtain ⟨_, _, _, _, _, hback, _⟩ := harithmetic _ _ hlargest hten
  obtain ⟨⟨hmissing, _⟩, _⟩ := harithmetic 18446744073709551615 1 hlargest (by decide)
  exact ⟨⟨hbelow, hten, rfl, hdifference _ rfl⟩,
    ⟨hfactor, hfactor', rfl, hquotient _ rfl (by decide)⟩,
    ⟨hlargest, hmissing.mpr (.inr (by decide)), hback (by decide)⟩,
    (hcomplement (-3)).2.2, (hinvolution 10 hten).2, (hlaws _ _ hten hbelow).1⟩

end WordMachine.Word
