import WordMachine.Text

/-!
# Pieces of a text and decimal numerals

A text without a separating character is one piece, and a separating character
parts the pieces before it from those behind it. The digits that write a natural
number in base ten are read as that number, and they are never taken for a
hexadecimal literal.
-/

namespace WordMachine.Text

/-- Cutting a text is the splitting of a list. -/
theorem split_eq_splitOnP (separates : Char → Bool) (cs : List Char) :
    split separates cs = cs.splitOnP separates := by
  induction cs with
  | nil => rfl
  | cons c cs ih =>
    have hcut : split separates (c :: cs) =
        if separates c then [] :: split separates cs else extendFirst c (split separates cs) := rfl
    obtain ⟨piece, pieces, hpieces⟩ :=
      List.exists_cons_of_ne_nil (List.splitOnP_ne_nil separates cs)
    rw [hcut, List.splitOnP_cons_eq_if_modifyHead, ih, hpieces]
    rfl

/-- Texts of one line each are cut apart again when they are written below each other. -/
theorem split_intercalate {texts : List String} (hne : texts ≠ [])
    (htexts : ∀ text ∈ texts, '\n' ∉ text.toList) :
    split (· = '\n') ("\n".intercalate texts).toList = texts.map String.toList := by
  have hpieces : ∀ piece ∈ texts.map String.toList, '\n' ∉ piece := by simpa using htexts
  have hsome : texts.map String.toList ≠ [] := by simpa using hne
  rw [split_eq_splitOnP, String.toList_intercalate]
  exact List.splitOn_intercalate '\n' hpieces hsome

/-- A separating character parts the pieces before it from those behind it. -/
theorem split_append_cons {separates : Char → Bool} {c : Char} (hc : separates c = true)
    (before after : List Char) :
    split separates (before ++ c :: after) = split separates before ++ split separates after := by
  simp only [split_eq_splitOnP]
  exact List.splitOnP_append_cons before after hc

/-- There is one piece more than there are separating characters. -/
theorem length_split (separates : Char → Bool) (cs : List Char) :
    (split separates cs).length = cs.countP separates + 1 := by
  induction cs with
  | nil => rfl
  | cons c cs ih =>
    cases hc : separates c with
    | true =>
      have hcut : split separates (c :: cs) = split separates [] ++ split separates cs :=
        split_append_cons hc [] cs
      rw [hcut, List.length_append, ih, List.countP_cons_of_pos hc]
      exact Nat.add_comm 1 _
    | false =>
      obtain ⟨piece, pieces, hpieces⟩ :=
        List.exists_cons_of_length_pos (Nat.lt_of_lt_of_eq (Nat.succ_pos _) ih.symm)
      have hextend : split separates (c :: cs) = extendFirst c (split separates cs) := by
        simp [split, hc]
      rw [hextend, hpieces, List.countP_cons_of_neg (by simp [hc]), ← ih, hpieces]
      rfl

/-- A separating character parts the words before it from those behind it. -/
theorem words_append_cons {separates : Char → Bool} {c : Char} (hc : separates c = true)
    (before after : List Char) :
    words separates (before ++ c :: after) = words separates before ++ words separates after := by
  rw [words, split_append_cons hc, List.filter_append]
  rfl

/-- Characters that do not separate make up a single word. -/
theorem words_of_forall {separates : Char → Bool} {cs : List Char} (hne : cs ≠ [])
    (hcs : ∀ c ∈ cs, separates c = false) : words separates cs = [cs] := by
  rw [words, split_eq_splitOnP, List.splitOnP_eq_singleton hcs]
  simp [hne]

/-- Letters and digits of ASCII lie between two bounds. -/
theorem toNat_of_isAlphanum {c : Char} (hc : c.isAlphanum = true) :
    48 ≤ c.toNat ∧ c.toNat ≤ 122 ∧ c.toNat ≠ 59 := by
  have hranges : (decide (c.val ≥ 'A'.val ∧ c.val ≤ 'Z'.val) ||
      (decide (c.val ≥ 'a'.val) && decide (c.val ≤ 'z'.val)) ||
      (decide (c.val ≥ '0'.val) && decide (c.val ≤ '9'.val))) = true := hc
  simp only [Bool.or_eq_true, Bool.and_eq_true, decide_eq_true_eq, ge_iff_le,
    UInt32.le_iff_toNat_le] at hranges
  change ((65 ≤ c.toNat ∧ c.toNat ≤ 90) ∨ 97 ≤ c.toNat ∧ c.toNat ≤ 122) ∨
    48 ≤ c.toNat ∧ c.toNat ≤ 57 at hranges
  omega

/-- Letters and digits of ASCII are not white space. -/
theorem isBlank_of_isAlphanum {c : Char} (hc : c.isAlphanum = true) : isBlank c = false := by
  obtain ⟨hlow, hhigh, _⟩ := toNat_of_isAlphanum hc
  simp only [isBlank, blankRanges, List.any_cons, List.any_nil, Bool.or_false, Bool.or_eq_false_iff,
    Bool.and_eq_false_iff, decide_eq_false_iff_not]
  omega

/-- A decimal digit has the value that its code point tells. -/
theorem digit?_of_isDigit {c : Char} (hc : c.isDigit = true) :
    digit? 10 c = some (c.toNat - '0'.toNat) := by
  simp only [Char.isDigit, Bool.and_eq_true, decide_eq_true_eq] at hc
  have hbounds : '0' ≤ c ∧ c ≤ '9' := hc
  have hhigh : c.toNat ≤ 57 := hc.2
  have hten : c.toNat - '0'.toNat < 10 := by
    have hzero : '0'.toNat = 48 := rfl
    omega
  simp only [digit?, if_pos hbounds, Option.filter_some, decide_eq_true hten, if_true]

/-- Decimal digits are read one after another. -/
theorem foldlM_digit? {cs : List Char} (hcs : ∀ c ∈ cs, c.isDigit = true) (start : Nat) :
    cs.foldlM (fun value c => (digit? 10 c).map (10 * value + ·)) start =
      some (Nat.ofDigitChars 10 cs start) := by
  induction cs generalizing start with
  | nil => simp
  | cons c cs ih =>
    have hc : c.isDigit = true := hcs c (by simp)
    have hothers : ∀ other ∈ cs, other.isDigit = true := fun other hother =>
      hcs other (by simp [hother])
    rw [List.foldlM_cons, digit?_of_isDigit hc, Nat.ofDigitChars_cons]
    exact ih hothers _

/-- Decimal digits are a decimal literal: none of them is the mark of a hexadecimal one. -/
theorem literal?_of_isDigit {cs : List Char} (hne : cs ≠ [])
    (hcs : ∀ c ∈ cs, c.isDigit = true) : literal? cs = some (Nat.ofDigitChars 10 cs 0) := by
  have hnumeral : numeral? 10 cs = some (Nat.ofDigitChars 10 cs 0) := by
    cases cs with
    | nil => exact absurd rfl hne
    | cons c cs => exact foldlM_digit? hcs 0
  rw [← hnumeral]
  unfold literal?
  split
  · exact absurd (hcs 'x' (by simp)) (by decide)
  · exact absurd (hcs 'X' (by simp)) (by decide)
  · rfl

/-- The digits of a number are digits of ASCII. -/
theorem isAlphanum_of_mem_toDigits {n : Nat} {c : Char} (hc : c ∈ Nat.toDigits 10 n) :
    c.isAlphanum = true := by
  have hdigit : c.isDigit = true := Nat.isDigit_of_mem_toDigits (by decide) (by decide) hc
  rw [Char.isAlphanum, hdigit, Bool.or_true]

/-- The digits of a number are a literal for that number. -/
theorem literal?_toDigits (n : Nat) : literal? (Nat.toDigits 10 n) = some n := by
  have hdigits : ∀ c ∈ Nat.toDigits 10 n, c.isDigit = true := fun c hc =>
    Nat.isDigit_of_mem_toDigits (by decide) (by decide) hc
  rw [literal?_of_isDigit Nat.toDigits_ne_nil hdigits, Nat.ofDigitChars_ten_toDigits]

end WordMachine.Text
