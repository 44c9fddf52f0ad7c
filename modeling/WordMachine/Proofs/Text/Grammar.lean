import Mathlib.Data.Nat.Digits.Lemmas
import Mathlib.Tactic.Ring
import WordMachine.Proofs.Text
import WordMachine.Text

/-!
# Parts of a text and literals, described

What cutting a text and reading a literal come to, said without cutting or reading. The
parts of a text are its longest runs without white space. A literal is a run of digits
in base ten, or in base sixteen behind its mark, and stands for the sum of its digits
times the powers of the base.
-/

namespace WordMachine.Text

/-- Nothing but white space. -/
def Blank (cs : List Char) : Prop :=
  ∀ c ∈ cs, isBlank c = true

/-- One character at least, and no white space. -/
def Solid (cs : List Char) : Prop :=
  cs ≠ [] ∧ ∀ c ∈ cs, isBlank c = false

/-- The parts of a text: there is white space around each of them, or the text begins or ends
there. -/
inductive Parts : List Char → List (List Char) → Prop
  | nil {cs : List Char} (hblank : Blank cs) : Parts cs []
  | cons {blanks part rest : List Char} {parts : List (List Char)} (hblanks : Blank blanks)
    (hpart : Solid part) (hends : ∀ c ∈ rest.head?, isBlank c = true) (hrest : Parts rest parts) :
    Parts (blanks ++ part ++ rest) (part :: parts)

instance : DecidablePred Blank := fun cs => List.decidableBAll _ cs

/-- An empty text is nothing but white space. -/
theorem blank_nil : Blank [] :=
  fun _ hc => absurd hc List.not_mem_nil

/-- White space in front of a text makes no difference to its words. -/
theorem Blank.words_append {blanks : List Char} (hblanks : Blank blanks) (cs : List Char) :
    words isBlank (blanks ++ cs) = words isBlank cs := by
  induction blanks with
  | nil => rfl
  | cons c blanks ih =>
    have hc : isBlank c = true := hblanks c (by simp)
    have hothers : Blank blanks := fun other hother => hblanks other (by simp [hother])
    have hcut : words isBlank ([] ++ c :: (blanks ++ cs)) =
        words isBlank [] ++ words isBlank (blanks ++ cs) :=
      words_append_cons hc [] (blanks ++ cs)
    exact hcut.trans (ih hothers)

/-- A run without white space is the first word, if it ends before white space. -/
theorem Solid.words_append {part rest : List Char} (hpart : Solid part)
    (hends : ∀ c ∈ rest.head?, isBlank c = true) :
    words isBlank (part ++ rest) = part :: words isBlank rest := by
  have hword : words isBlank part = [part] := words_of_forall hpart.1 hpart.2
  cases rest with
  | nil =>
    rw [List.append_nil, hword]
    rfl
  | cons c rest =>
    have hc : isBlank c = true := hends c rfl
    have hblank : Blank [c] := fun other hother => List.mem_singleton.mp hother ▸ hc
    rw [words_append_cons hc, hword, ← hblank.words_append rest]
    rfl

/-- The parts of a text are its words. -/
theorem Parts.words_eq {cs : List Char} {parts : List (List Char)} (h : Parts cs parts) :
    words isBlank cs = parts := by
  induction h with
  | nil hblank =>
    rename_i cs
    rw [← List.append_nil cs, hblank.words_append]
    rfl
  | cons hblanks hpart hends _ ih =>
    rw [List.append_assoc, hblanks.words_append, hpart.words_append hends, ih]

/-- White space in front of white space is white space. -/
theorem Blank.cons {c : Char} {cs : List Char} (hc : isBlank c = true) (hcs : Blank cs) :
    Blank (c :: cs) := by
  intro other hother
  rcases List.mem_cons.mp hother with rfl | hother
  · exact hc
  · exact hcs other hother

/-- A text with white space in front has the same parts. -/
theorem Parts.cons_blank {c : Char} {cs : List Char} {parts : List (List Char)}
    (hc : isBlank c = true) (h : Parts cs parts) : Parts (c :: cs) parts := by
  cases h with
  | nil hblank => exact .nil (hblank.cons hc)
  | cons hblanks hpart hends hrest => exact .cons (hblanks.cons hc) hpart hends hrest

/-- Another character in front of a text starts a part of its own or makes the first one longer. -/
theorem Parts.exists_cons_solid {c : Char} {cs : List Char} {parts : List (List Char)}
    (hc : isBlank c = false) (h : Parts cs parts) : ∃ parts', Parts (c :: cs) parts' := by
  by_cases hends : ∀ d ∈ cs.head?, isBlank d = true
  · have hpart : Solid [c] := ⟨by simp, by simpa using hc⟩
    have hparts : Parts ([] ++ [c] ++ cs) ([c] :: parts) := .cons blank_nil hpart hends h
    exact ⟨_, hparts⟩
  · cases h with
    | nil hblank =>
      refine absurd (fun d hd => hblank d ?_) hends
      exact List.mem_of_mem_head? hd
    | @cons blanks part rest parts hblanks hpart hends' hrest =>
      cases blanks with
      | nil =>
        have hlonger : Solid (c :: part) := by
          refine ⟨by simp, fun d hd => ?_⟩
          rcases List.mem_cons.mp hd with rfl | hd
          · exact hc
          · exact hpart.2 d hd
        have hparts : Parts ([] ++ (c :: part) ++ rest) ((c :: part) :: parts) :=
          .cons blank_nil hlonger hends' hrest
        exact ⟨_, hparts⟩
      | cons b blanks =>
        refine absurd (fun d hd => ?_) hends
        obtain rfl : b = d := Option.some.inj hd
        exact hblanks b (by simp)

/-- Every text has parts. -/
theorem exists_parts (cs : List Char) : ∃ parts, Parts cs parts := by
  induction cs with
  | nil => exact ⟨[], .nil blank_nil⟩
  | cons c cs ih =>
    obtain ⟨parts, hparts⟩ := ih
    cases hc : isBlank c with
    | true => exact ⟨parts, hparts.cons_blank hc⟩
    | false => exact hparts.exists_cons_solid hc

/-- The words of a text are its parts, and nothing else is. -/
theorem words_eq_iff {cs : List Char} {parts : List (List Char)} :
    words isBlank cs = parts ↔ Parts cs parts := by
  constructor
  · rintro rfl
    obtain ⟨parts, hparts⟩ := exists_parts cs
    rw [hparts.words_eq]
    exact hparts
  · exact Parts.words_eq

/-- A text without parts is white space. -/
theorem parts_nil_iff {cs : List Char} : Parts cs [] ↔ Blank cs := by
  constructor
  · intro h
    cases h with
    | nil hblank => exact hblank
  · exact .nil

/-- A text with a single part has white space around it. -/
theorem parts_singleton_iff {cs part : List Char} :
    Parts cs [part] ↔ Solid part ∧ ∃ left right, Blank left ∧ Blank right ∧
      cs = left ++ part ++ right := by
  constructor
  · intro h
    cases h with
    | cons hblanks hpart _ hrest =>
      exact ⟨hpart, _, _, hblanks, parts_nil_iff.mp hrest, rfl⟩
  · rintro ⟨hpart, left, right, hleft, hright, rfl⟩
    refine .cons hleft hpart (fun c hc => ?_) (.nil hright)
    exact hright c (List.mem_of_mem_head? hc)

/-- A text with two parts has white space around and between them. -/
theorem parts_pair_iff {cs first second : List Char} :
    Parts cs [first, second] ↔ Solid first ∧ Solid second ∧
      ∃ left between right, Blank left ∧ Blank between ∧ between ≠ [] ∧ Blank right ∧
        cs = left ++ first ++ between ++ second ++ right := by
  constructor
  · intro h
    cases h with
    | cons hblanks hfirst hends hrest =>
      obtain ⟨hsecond, between, right, hbetween, hright, rfl⟩ := parts_singleton_iff.mp hrest
      refine ⟨hfirst, hsecond, _, between, right, hblanks, hbetween, ?_, hright, by simp⟩
      rintro rfl
      -- Otherwise the second part would begin with white space.
      obtain ⟨c, chars, rfl⟩ := List.exists_cons_of_ne_nil hsecond.1
      have hblank : isBlank c = true := hends c rfl
      rw [hsecond.2 c (by simp)] at hblank
      cases hblank
  · rintro ⟨hfirst, hsecond, left, between, right, hleft, hbetween, hne, hright, rfl⟩
    have hrest : Parts (between ++ second ++ right) [second] :=
      parts_singleton_iff.mpr ⟨hsecond, between, right, hbetween, hright, rfl⟩
    have hends : ∀ c ∈ (between ++ second ++ right).head?, isBlank c = true := by
      obtain ⟨b, blanks, rfl⟩ := List.exists_cons_of_ne_nil hne
      intro c hc
      obtain rfl : b = c := Option.some.inj hc
      exact hbetween b (by simp)
    have hparts := Parts.cons hleft hfirst hends hrest
    simpa only [List.append_assoc] using hparts

/-- A digit in a base, in either case, and its value. -/
def Digit (base : Nat) (c : Char) (value : Nat) : Prop :=
  value < base ∧ (c = Nat.digitChar value ∨ c = (Nat.digitChar value).toUpper)

/-- A run of digits in a base, the most significant first, and the number that they write. -/
def Numeral (base : Nat) (cs : List Char) (value : Nat) : Prop :=
  cs ≠ [] ∧ ∃ digits, List.Forall₂ (Digit base) cs digits ∧
    Nat.ofDigits base digits.reverse = value

/-- A decimal literal, or a hexadecimal one behind its mark, and the number that it writes. -/
inductive Literal : List Char → Nat → Prop
  | decimal {cs : List Char} {value : Nat} (h : Numeral 10 cs value) : Literal cs value
  | hexadecimal {mark : Char} {cs : List Char} {value : Nat} (hmark : mark = 'x' ∨ mark = 'X')
    (h : Numeral 16 cs value) : Literal ('0' :: mark :: cs) value

/-- A digit in a base is one of the sixteen digits with a value below the base. -/
theorem digit?_eq_filter {base : Nat} (hbase : base ≤ 16) (c : Char) :
    digit? base c = (digit? 16 c).filter (· < base) := by
  have hboth (value : Nat) : (decide (value < 16) && decide (value < base)) =
      decide (value < base) := by
    rw [← Bool.decide_and]
    exact decide_eq_decide.mpr ⟨And.right, fun hlt => ⟨by omega, hlt⟩⟩
  simp only [digit?, Option.filter_filter, hboth]

/-- Digits are characters of ASCII. -/
theorem toNat_lt_of_digit? {base value : Nat} {c : Char} (h : digit? base c = some value) :
    c.toNat < 128 := by
  obtain ⟨hvalue, _⟩ := Option.filter_eq_some_iff.mp h
  split at hvalue
  · rename_i hbounds
    have hhigh : c.toNat ≤ 57 := hbounds.2
    omega
  · split at hvalue
    · rename_i hbounds
      have hhigh : c.toNat ≤ 102 := hbounds.2
      omega
    · split at hvalue
      · rename_i hbounds
        have hhigh : c.toNat ≤ 70 := hbounds.2
        omega
      · cases hvalue

/-- A digit is read exactly if it is one, in either case. -/
theorem digit?_eq_some_iff {base value : Nat} {c : Char} (hbase : base ≤ 16) :
    digit? base c = some value ↔ Digit base c value := by
  rw [digit?_eq_filter hbase, Option.filter_eq_some_iff, decide_eq_true_eq, and_comm, Digit]
  refine and_congr_right fun hlt => ⟨fun hread => ?_, ?_⟩
  · have hascii : ∀ n < 128, (digit? 16 (Char.ofNat n)).all (fun value =>
        Char.ofNat n = Nat.digitChar value ∨ Char.ofNat n = (Nat.digitChar value).toUpper) := by
      decide
    have hc := hascii c.toNat (toNat_lt_of_digit? hread)
    rw [Char.ofNat_toNat, hread, Option.all_some, decide_eq_true_eq] at hc
    exact hc
  · have hdigits : ∀ value < 16, digit? 16 (Nat.digitChar value) = some value ∧
        digit? 16 (Nat.digitChar value).toUpper = some value := by
      decide
    rintro (rfl | rfl)
    · exact (hdigits value (by omega)).1
    · exact (hdigits value (by omega)).2

/-- Digits that are read behind others add their number to that of the others, which moves on by as
many places. -/
theorem foldlM_digit?_eq_some_iff {base value : Nat} (hbase : base ≤ 16) (cs : List Char)
    (start : Nat) :
    cs.foldlM (fun value c => (digit? base c).map (base * value + ·)) start = some value ↔
      ∃ digits, List.Forall₂ (Digit base) cs digits ∧
        Nat.ofDigits base digits.reverse + base ^ cs.length * start = value := by
  induction cs generalizing start with
  | nil => simp [eq_comm]
  | cons c cs ih =>
    -- The first digit comes in at the place that the others leave free.
    have hplace (digit : Nat) {digits : List Nat} (hdigits : List.Forall₂ (Digit base) cs digits) :
        Nat.ofDigits base digits.reverse + base ^ cs.length * (base * start + digit) =
          Nat.ofDigits base (digit :: digits).reverse + base ^ (c :: cs).length * start := by
      rw [List.reverse_cons, Nat.ofDigits_append, List.length_reverse, Nat.ofDigits_singleton,
        ← hdigits.length_eq, List.length_cons, Nat.pow_succ]
      ring
    simp only [List.foldlM_cons, Option.bind_eq_bind, Option.bind_map, Option.bind_eq_some_iff,
      Function.comp_apply, ih, digit?_eq_some_iff hbase]
    constructor
    · rintro ⟨digit, hdigit, digits, hdigits, rfl⟩
      exact ⟨digit :: digits, .cons hdigit hdigits, (hplace digit hdigits).symm⟩
    · rintro ⟨_, hdigits, rfl⟩
      cases hdigits with
      | cons hdigit hdigits => exact ⟨_, hdigit, _, hdigits, hplace _ hdigits⟩

/-- A numeral is read exactly if it is one, as its number. -/
theorem numeral?_eq_some_iff {base value : Nat} {cs : List Char} (hbase : base ≤ 16) :
    numeral? base cs = some value ↔ Numeral base cs value := by
  cases cs with
  | nil => simp [numeral?, Numeral]
  | cons c cs =>
    have hnumeral : numeral? base (c :: cs) =
        (c :: cs).foldlM (fun value c => (digit? base c).map (base * value + ·)) 0 := rfl
    rw [hnumeral, foldlM_digit?_eq_some_iff hbase, Numeral]
    simp

/-- A numeral consists of digits. -/
theorem Numeral.exists_digit {base value : Nat} {cs : List Char} (h : Numeral base cs value) :
    ∀ c ∈ cs, ∃ digit, Digit base c digit := by
  obtain ⟨-, digits, hdigits, -⟩ := h
  intro c hc
  induction hdigits with
  | nil => exact absurd hc List.not_mem_nil
  | cons hdigit _ ih =>
    rcases List.mem_cons.mp hc with rfl | hc
    · exact ⟨_, hdigit⟩
    · exact ih hc

/-- The mark of a hexadecimal literal is no decimal digit. -/
theorem not_numeral_of_mark {mark : Char} (hmark : mark = 'x' ∨ mark = 'X') {cs : List Char}
    {value : Nat} : ¬ Numeral 10 ('0' :: mark :: cs) value := by
  intro h
  obtain ⟨digit, hdigit⟩ := h.exists_digit mark (by simp)
  have hread := (digit?_eq_some_iff (by decide)).mpr hdigit
  rcases hmark with rfl | rfl
  · exact absurd hread (by simp [show digit? 10 'x' = none by decide])
  · exact absurd hread (by simp [show digit? 10 'X' = none by decide])

/-- Behind its mark a literal is hexadecimal and nothing else. -/
theorem literal_mark_iff {mark : Char} (hmark : mark = 'x' ∨ mark = 'X') {cs : List Char}
    {value : Nat} : Literal ('0' :: mark :: cs) value ↔ Numeral 16 cs value := by
  constructor
  · intro h
    cases h with
    | decimal h => exact absurd h (not_numeral_of_mark hmark)
    | hexadecimal _ h => exact h
  · exact .hexadecimal hmark

/-- A literal is read exactly if it is one, as its number. -/
theorem literal?_eq_some_iff {cs : List Char} {value : Nat} :
    literal? cs = some value ↔ Literal cs value := by
  unfold literal?
  split
  · rw [literal_mark_iff (.inl rfl), numeral?_eq_some_iff (by decide)]
  · rw [literal_mark_iff (.inr rfl), numeral?_eq_some_iff (by decide)]
  · rename_i hlower hupper
    rw [numeral?_eq_some_iff (by decide)]
    constructor
    · exact .decimal
    · intro h
      cases h with
      | decimal h => exact h
      | hexadecimal hmark _ =>
        rcases hmark with rfl | rfl
        · exact absurd rfl (hlower _)
        · exact absurd rfl (hupper _)

/-- A literal that is not read is none. -/
theorem literal?_eq_none_iff {cs : List Char} :
    literal? cs = none ↔ ∀ value, ¬ Literal cs value := by
  simp only [← literal?_eq_some_iff, Option.eq_none_iff_forall_ne_some, ne_eq]

/-- Digits are not white space. -/
theorem Digit.isBlank_eq_false {base value : Nat} {c : Char} (hbase : base ≤ 16)
    (h : Digit base c value) : isBlank c = false := by
  have hdigits : ∀ value < 16, isBlank (Nat.digitChar value) = false ∧
      isBlank (Nat.digitChar value).toUpper = false := by
    decide
  obtain ⟨hlt, rfl | rfl⟩ := h
  · exact (hdigits value (by omega)).1
  · exact (hdigits value (by omega)).2

/-- A numeral is a single part. -/
theorem Numeral.isBlank_eq_false {base value : Nat} {cs : List Char} (hbase : base ≤ 16)
    (h : Numeral base cs value) : ∀ c ∈ cs, isBlank c = false := by
  intro c hc
  obtain ⟨digit, hdigit⟩ := h.exists_digit c hc
  exact hdigit.isBlank_eq_false hbase

/-- There is no white space in a literal. -/
theorem Literal.solid {cs : List Char} {value : Nat} (h : Literal cs value) : Solid cs := by
  cases h with
  | decimal h => exact ⟨h.1, h.isBlank_eq_false (by decide)⟩
  | hexadecimal hmark h =>
    refine ⟨by simp, fun c hc => ?_⟩
    rcases List.mem_cons.mp hc with rfl | hc
    · decide
    · rcases List.mem_cons.mp hc with rfl | hc
      · rcases hmark with rfl | rfl <;> decide
      · exact h.isBlank_eq_false (by decide) c hc

/-- White space is left alone by the upper case. -/
theorem mem_upperChar_of_isBlank {c : Char} (hc : isBlank c = true) : c ∈ upperChar c := by
  have hall : ∀ range ∈ blankRanges, ∀ n ∈ List.range' range.1 (range.2 + 1 - range.1),
      Char.ofNat n ∈ upperChar (Char.ofNat n) := by
    decide
  obtain ⟨range, hrange, hbounds⟩ := List.any_eq_true.mp hc
  simp only [Bool.and_eq_true, decide_eq_true_eq] at hbounds
  have hmem := hall range hrange c.toNat (List.mem_range'_1.mpr (by omega))
  rwa [Char.ofNat_toNat] at hmem

/-- There is no white space in a text whose upper case has none. -/
theorem solid_of_upperCase {cs : List Char} (h : Solid (upperCase cs)) : Solid cs := by
  refine ⟨?_, fun c hc => ?_⟩
  · rintro rfl
    exact h.1 rfl
  · by_contra hblank
    rw [Bool.not_eq_false] at hblank
    have hmem : c ∈ upperCase cs :=
      List.mem_flatMap.mpr ⟨c, hc, mem_upperChar_of_isBlank hblank⟩
    rw [h.2 c hmem] at hblank
    cases hblank

end WordMachine.Text
