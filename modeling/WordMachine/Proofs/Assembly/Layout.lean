import Mathlib.Logic.Relation
import WordMachine.Proofs.Assembly.Grammar

/-!
# Layout and letter case of source texts

What a line holds is decided by the words before its comment. White space around the code
of a line, more or less of it between two words, and the comment make no difference to them,
so that source texts which differ in nothing else are assembled alike. A carriage return in
front of a line end is white space of this kind, or it belongs to a comment.

The case of letters does make a difference to the words, and problems quote the words as
they are written. It makes none to the opcode of a mnemonic and to the number that a literal
stands for: both are the same for the text in lower case.
-/

namespace WordMachine

namespace Text

/-- White space parts the words before it from those behind it, however much of it there is. -/
theorem Blank.words_append_append {blanks : List Char} (hblanks : Blank blanks)
    (hne : blanks ≠ []) (left right : List Char) :
    words isBlank (left ++ blanks ++ right) = words isBlank left ++ words isBlank right := by
  obtain ⟨c, others, rfl⟩ := List.exists_cons_of_ne_nil hne
  obtain ⟨hc, hothers⟩ := List.forall_mem_cons.mp hblanks
  rw [List.append_assoc, List.cons_append, words_append_cons hc, Blank.words_append hothers]

/-- White space at the end of a text makes no difference to its words. -/
theorem Blank.append_words {blanks : List Char} (hblanks : Blank blanks) (cs : List Char) :
    words isBlank (cs ++ blanks) = words isBlank cs := by
  by_cases hne : blanks = []
  · rw [hne, List.append_nil]
  · have hcut := hblanks.words_append_append hne cs []
    rw [List.append_nil] at hcut
    rw [hcut]
    exact List.append_nil _

/-- The letters from A to Z by their number, which have a lower case of their own. -/
def capital (n : Nat) : Char :=
  Char.ofNat ('A'.toNat + n)

/-- Only capitals are changed by the lower case. -/
theorem toLower_eq_or_capital (c : Char) : c.toLower = c ∨ ∃ n < 26, c = capital n := by
  by_cases hupper : 'A'.val ≤ c.val ∧ c.val ≤ 'Z'.val
  · right
    have hbounds : 'A'.toNat ≤ c.toNat ∧ c.toNat ≤ 'A'.toNat + 25 := hupper
    refine ⟨c.toNat - 'A'.toNat, by omega, ?_⟩
    rw [capital, Nat.add_sub_of_le hbounds.1, Char.ofNat_toNat]
  · left
    exact dif_neg hupper

/-- What does not tell capitals from their lower case does not tell any characters from theirs. -/
theorem apply_toLower {α : Type} {f : Char → α}
    (h : ∀ n < 26, f (capital n).toLower = f (capital n)) (c : Char) : f c.toLower = f c := by
  rcases toLower_eq_or_capital c with hself | ⟨n, hn, rfl⟩
  · rw [hself]
  · exact h n hn

/-- A text in lower case is cut at the same places. -/
theorem split_map_toLower {separates : Char → Bool}
    (h : ∀ c : Char, separates c.toLower = separates c) (cs : List Char) :
    split separates (cs.map Char.toLower) =
      (split separates cs).map (·.map Char.toLower) := by
  simp only [split_eq_splitOnP]
  induction cs with
  | nil => rfl
  | cons c cs ih =>
    rw [List.map_cons, List.splitOnP_cons_eq_if_modifyHead, List.splitOnP_cons_eq_if_modifyHead, h,
      ih]
    split
    · rfl
    · cases cs.splitOnP separates <;> rfl

/-- The words of a text in lower case are its words in lower case. -/
theorem words_map_toLower (cs : List Char) :
    words isBlank (cs.map Char.toLower) = (words isBlank cs).map (·.map Char.toLower) := by
  have hblank : ∀ c : Char, isBlank c.toLower = isBlank c := apply_toLower (by decide)
  rw [words, split_map_toLower hblank, List.filter_map, words]
  congr 2
  funext piece
  simp

/-- A text and its lower case have the same upper case. -/
theorem upperCase_map_toLower (cs : List Char) :
    upperCase (cs.map Char.toLower) = upperCase cs := by
  have hupper : ∀ c : Char, upperChar c.toLower = upperChar c := apply_toLower (by decide)
  rw [upperCase, List.flatMap_map]
  exact List.flatMap_congr fun c _ => hupper c

/-- Digits may be written in either case. -/
theorem digit?_toLower {base : Nat} (hbase : base ≤ 16) (c : Char) :
    digit? base c.toLower = digit? base c := by
  have hdigit : ∀ c : Char, digit? 16 c.toLower = digit? 16 c := apply_toLower (by decide)
  rw [digit?_eq_filter hbase, digit?_eq_filter hbase c, hdigit]

/-- A numeral in lower case stands for the same number. -/
theorem numeral?_map_toLower {base : Nat} (hbase : base ≤ 16) (cs : List Char) :
    numeral? base (cs.map Char.toLower) = numeral? base cs := by
  cases cs with
  | nil => rfl
  | cons c cs =>
    have hnumeral (c : Char) (cs : List Char) : numeral? base (c :: cs) =
        (c :: cs).foldlM (fun value c => (digit? base c).map (base * value + ·)) 0 := rfl
    rw [List.map_cons, hnumeral, hnumeral, ← List.map_cons, List.foldlM_map]
    simp only [digit?_toLower hbase]

/-- A text that starts with the mark of a hexadecimal literal. -/
def Marked (cs : List Char) : Prop :=
  ∃ mark digits, (mark = 'x' ∨ mark = 'X') ∧ cs = '0' :: mark :: digits

/-- Without the mark a literal is decimal. -/
theorem literal?_of_not_marked {cs : List Char} (h : ¬ Marked cs) :
    literal? cs = numeral? 10 cs := by
  unfold literal?
  split
  · exact absurd ⟨_, _, .inl rfl, rfl⟩ h
  · exact absurd ⟨_, _, .inr rfl, rfl⟩ h
  · rfl

/-- A text that has the mark in lower case has it as it is written. -/
theorem Marked.of_map_toLower {cs : List Char} (h : Marked (cs.map Char.toLower)) : Marked cs := by
  have hzero : ∀ n < 26, (capital n).toLower ≠ '0' := by decide
  have hmarks : ∀ n < 26, (capital n).toLower = 'x' ∨ (capital n).toLower = 'X' →
      capital n = 'x' ∨ capital n = 'X' := by
    decide
  obtain ⟨_, _, hmark, hlower⟩ := h
  obtain ⟨first, others, rfl, hfirst, hothers⟩ := List.map_eq_cons_iff.mp hlower
  obtain ⟨second, digits, rfl, rfl, _⟩ := List.map_eq_cons_iff.mp hothers
  refine ⟨second, digits, ?_, ?_⟩
  · rcases toLower_eq_or_capital second with hself | ⟨n, hn, rfl⟩
    · rwa [hself] at hmark
    · exact hmarks n hn hmark
  · rcases toLower_eq_or_capital first with hself | ⟨n, hn, rfl⟩
    · rw [← hself, hfirst]
    · exact absurd hfirst (hzero n hn)

/-- A literal in lower case stands for the same number. -/
theorem literal?_map_toLower (cs : List Char) :
    literal? (cs.map Char.toLower) = literal? cs := by
  by_cases hmarked : Marked cs
  · obtain ⟨_, digits, rfl | rfl, rfl⟩ := hmarked
    · exact numeral?_map_toLower (by decide) digits
    · exact numeral?_map_toLower (by decide) digits
  · have hlower : ¬ Marked (cs.map Char.toLower) := fun h => hmarked h.of_map_toLower
    rw [literal?_of_not_marked hmarked, literal?_of_not_marked hlower]
    exact numeral?_map_toLower (by decide) cs

end Text

/-- A mnemonic may be written in lower case. -/
theorem Opcode.ofMnemonic?_map_toLower (mnemonic : List Char) :
    ofMnemonic? (mnemonic.map Char.toLower) = ofMnemonic? mnemonic := by
  rw [ofMnemonic?, ofMnemonic?, Text.upperCase_map_toLower]

namespace Assembly

/-- One change of the white space in the code of a line, which leaves words apart that were so. -/
inductive Respaced : List Char → List Char → Prop
  | start {blanks : List Char} (hblanks : Text.Blank blanks) (code : List Char) :
    Respaced code (blanks ++ code)
  | finish {blanks : List Char} (hblanks : Text.Blank blanks) (code : List Char) :
    Respaced code (code ++ blanks)
  | between {blanks blanks' : List Char} (hblanks : Text.Blank blanks) (hne : blanks ≠ [])
    (hblanks' : Text.Blank blanks') (hne' : blanks' ≠ []) (left right : List Char) :
    Respaced (left ++ blanks ++ right) (left ++ blanks' ++ right)

/-- Lines whose codes are led into each other by changes of white space, made or undone any number
of times. Their comments may be different, and one may have a comment and the other none. -/
def Relaid (line line' : List Char) : Prop :=
  ∃ code code', CodePart line code ∧ CodePart line' code' ∧ Relation.EqvGen Respaced code code'

/-- Lines whose codes differ in nothing but the case of ASCII letters. -/
def Recased (line line' : List Char) : Prop :=
  ∃ code code', CodePart line code ∧ CodePart line' code' ∧
    code.map Char.toLower = code'.map Char.toLower

/-- The line of a message and whether it is an error. -/
def Message.kind (message : Message) : Nat × Bool :=
  (message.line, message.remark.isError)

/-- What matters of a line besides the words that its problem quotes: its instruction, and whether
the remark on it is an error. -/
def Line.outline (line : Line) : Option Instruction × Option Bool :=
  (line.instruction?, line.remark?.map Remark.isError)

/-- The source text with a carriage return in front of each line end. -/
def withReturns (source : String) : String :=
  String.ofList (source.toList.flatMap fun c => if c = '\n' then ['\r', c] else [c])

variable {line line' code code' : List Char}

/-- White space in code may be changed without a difference to the words. -/
theorem words_of_respaced (h : Relation.EqvGen Respaced code code') :
    Text.words Text.isBlank code = Text.words Text.isBlank code' := by
  induction h with
  | rel code code' h =>
    cases h with
    | start hblanks => exact (hblanks.words_append code).symm
    | finish hblanks => exact (hblanks.append_words code).symm
    | between hblanks hne hblanks' hne' left right =>
      rw [hblanks.words_append_append hne, hblanks'.words_append_append hne']
  | refl code => rfl
  | symm code code' _ ih => exact ih.symm
  | trans code code' code'' _ _ ih ih' => exact ih.trans ih'

/-- Nothing but the words of its code matters to what a line holds. -/
theorem CodePart.read_eq_of_words (hcode : CodePart line code) (hcode' : CodePart line' code')
    (h : Text.words Text.isBlank code = Text.words Text.isBlank code') :
    Line.read line = Line.read line' := by
  have hwords : lineWords line = lineWords line' := by
    rw [hcode.lineWords_eq_iff, ← Text.words_eq_iff, h]
    exact (hcode'.lineWords_eq_iff.mpr (Text.words_eq_iff.mp rfl)).symm
  rw [Line.read, Line.read, hwords]

/-- A comment may be left out. -/
theorem CodePart.read_eq (hcode : CodePart line code) : Line.read line = Line.read code :=
  hcode.read_eq_of_words ⟨hcode.1, .inl rfl⟩ rfl

/-- Layout makes no difference to what a line holds. -/
theorem Relaid.read_eq (h : Relaid line line') : Line.read line = Line.read line' := by
  obtain ⟨code, code', hcode, hcode', hspace⟩ := h
  exact hcode.read_eq_of_words hcode' (words_of_respaced hspace)

/-- The words of a line in lower case are its words in lower case. -/
theorem lineWords_map_toLower (line : List Char) :
    lineWords (line.map Char.toLower) = (lineWords line).map (·.map Char.toLower) := by
  have hcomment : ∀ c : Char, decide (c.toLower ≠ ';') = decide (c ≠ ';') :=
    Text.apply_toLower (f := fun c => decide (c ≠ ';')) (by decide)
  rw [lineWords, List.takeWhile_map, Text.words_map_toLower, lineWords]
  simp only [Function.comp_def, hcomment]

/-- The case of letters in the operands of the literal opcode shows in nothing but problems. -/
theorem outline_readLiteral_map_toLower (operands : List (List Char)) :
    (readLiteral (operands.map (·.map Char.toLower))).outline =
      (readLiteral operands).outline := by
  rcases operands with _ | ⟨operand, _ | ⟨other, operands⟩⟩
  · rfl
  · simp only [List.map_cons, List.map_nil, readLiteral, Text.literal?_map_toLower]
    cases Text.literal? operand with
    | none => rfl
    | some value =>
      by_cases hword : IsWord value
      · simp only [if_pos hword]
      · simp only [if_neg hword]
        rfl
  · rfl

/-- The case of letters on a line shows in nothing but problems. -/
theorem outline_read_map_toLower (line : List Char) :
    (Line.read (line.map Char.toLower)).outline = (Line.read line).outline := by
  rw [Line.read, Line.read, lineWords_map_toLower]
  cases lineWords line with
  | nil => rfl
  | cons mnemonic operands =>
    simp only [List.map_cons, Opcode.ofMnemonic?_map_toLower, List.isEmpty_map]
    cases Opcode.ofMnemonic? mnemonic with
    | none => rfl
    | some opcode =>
      cases opcode with
      | set => exact outline_readLiteral_map_toLower operands
      | plain op => rfl

/-- Lines that differ in the case of letters have the same outline. -/
theorem Recased.outline_eq (h : Recased line line') :
    (Line.read line).outline = (Line.read line').outline := by
  obtain ⟨code, code', hcode, hcode', hlower⟩ := h
  calc (Line.read line).outline
      = (Line.read (code.map Char.toLower)).outline := by
        rw [hcode.read_eq, outline_read_map_toLower]
    _ = (Line.read line').outline := by
        rw [hlower, outline_read_map_toLower, hcode'.read_eq]

/-- The lines and the kinds of all messages are told by the outlines of the lines. -/
theorem kinds_messages (source : String) :
    (ofSource source).messages.map Message.kind =
      (((readLines source).map Line.outline).zipIdx 1).filterMap fun numbered =>
        numbered.1.2.map fun fatal => (numbered.2, fatal) := by
  have hmessages : (ofSource source).messages = messagesFrom 1 (readLines source) := rfl
  rw [hmessages, messagesFrom, List.map_filterMap, List.zipIdx_map, List.filterMap_map]
  congr 1
  funext numbered
  simp only [Function.comp_apply, Prod.map_fst, Prod.map_snd, Line.outline, Option.map_map]
  rfl

/-- The program is told by the outlines of the lines. -/
theorem program_eq_outlines (source : String) :
    (ofSource source).program =
      if ((ofSource source).messages.map Message.kind).any (·.2) then none
      else some (((readLines source).map Line.outline).filterMap (·.1)) := by
  rw [program_eq, List.any_map, List.filterMap_map]
  rfl

/-- Source texts with the same outlines have the same program and messages of the same kinds. -/
theorem eq_of_outlines_eq {source other : String}
    (h : (readLines source).map Line.outline = (readLines other).map Line.outline) :
    (ofSource source).program = (ofSource other).program ∧
      (ofSource source).messages.map Message.kind =
        (ofSource other).messages.map Message.kind := by
  have hkinds : (ofSource source).messages.map Message.kind =
      (ofSource other).messages.map Message.kind := by
    rw [kinds_messages, kinds_messages, h]
  refine ⟨?_, hkinds⟩
  rw [program_eq_outlines, program_eq_outlines, hkinds, h]

/-- A line is laid out like itself. -/
theorem Relaid.refl (line : List Char) : Relaid line line :=
  ⟨_, _, codePart_iff.mpr rfl, codePart_iff.mpr rfl, .refl _⟩

/-- A carriage return at the end of a line is white space or part of the comment. -/
theorem relaid_append_return (line : List Char) : Relaid line (line ++ ['\r']) := by
  have hcode : CodePart line (line.takeWhile (· ≠ ';')) := codePart_iff.mpr rfl
  generalize line.takeWhile (· ≠ ';') = code at hcode
  obtain ⟨hfree, rfl | ⟨comment, rfl⟩⟩ := hcode
  · have hspace : Respaced line (line ++ ['\r']) := .finish (by decide) line
    exact ⟨line, _, ⟨hfree, .inl rfl⟩, ⟨by simp [hfree], .inl rfl⟩, .rel _ _ hspace⟩
  · refine ⟨code, code, ⟨hfree, .inr ⟨comment, rfl⟩⟩, ⟨hfree, .inr ⟨comment ++ ['\r'], ?_⟩⟩,
      .refl code⟩
    rw [List.append_assoc, List.cons_append]

/-- A carriage return in front of each line end is the last character of the line, and nothing else
on the line is changed. -/
theorem splitOnP_flatMap_return (cs : List Char) :
    List.Forall₂ (fun line line' => line' = line ∨ line' = line ++ ['\r'])
      (cs.splitOnP (· == '\n'))
      ((cs.flatMap fun c => if c = '\n' then ['\r', c] else [c]).splitOnP (· == '\n')) := by
  induction cs with
  | nil => exact .cons (.inl rfl) .nil
  | cons c cs ih =>
    rw [List.flatMap_cons, List.splitOnP_cons_eq_if_modifyHead]
    by_cases hend : c = '\n'
    · subst hend
      exact .cons (.inr rfl) ih
    · have hinside : ¬ (c == '\n') = true := by simpa using hend
      rw [if_neg hend, if_neg hinside, List.singleton_append,
        List.splitOnP_cons_eq_if_modifyHead, if_neg hinside]
      -- The character is put in front of the first line of either text.
      generalize cs.splitOnP (· == '\n') = lines at ih
      generalize List.splitOnP (· == '\n') _ = lines' at ih
      cases ih with
      | nil => exact .nil
      | cons hfirst hothers =>
        refine .cons ?_ hothers
        rcases hfirst with rfl | rfl
        · exact .inl rfl
        · exact .inr rfl

/-- The lines of a text with carriage returns are laid out differently, and that is all. -/
theorem relaid_withReturns (source : String) :
    List.Forall₂ Relaid (sourceLines source) (sourceLines (withReturns source)) := by
  rw [sourceLines, sourceLines, withReturns, String.toList_ofList]
  refine (splitOnP_flatMap_return source.toList).imp ?_
  rintro line _ (rfl | rfl)
  · exact .refl _
  · exact relaid_append_return line

/-- What agrees on related items gives the same list for related lists. -/
theorem map_eq_of_forall₂ {α β : Type} {R : α → α → Prop} {f : α → β} {items items' : List α}
    (hf : ∀ a b, R a b → f a = f b) (h : List.Forall₂ R items items') :
    items.map f = items'.map f := by
  rw [← List.forall₂_eq_eq_eq, List.forall₂_map_left_iff, List.forall₂_map_right_iff]
  exact h.imp hf

/-- Source texts whose lines differ in layout are assembled alike. -/
theorem ofSource_eq_of_relaid {source other : String}
    (h : List.Forall₂ Relaid (sourceLines source) (sourceLines other)) :
    ofSource other = ofSource source := by
  have hread := map_eq_of_forall₂ (fun _ _ hline => Relaid.read_eq hline) h
  rw [← readLines_eq, ← readLines_eq] at hread
  rw [ofSource, ofSource, hread]

/-- Layout and comments make no difference to the assembly of a source text. If the lines of two
texts differ in the white space around and between their words and in their comments, the programs
are the same and so are the messages. This is so for a carriage return in front of each line end.
If the lines differ in the case of letters in front of their comments, the programs are the same,
and the messages have the same lines and are errors or warnings alike. -/
theorem assembles_regardless_of_layout (source other : String) :
    (List.Forall₂ Relaid (sourceLines source) (sourceLines other) →
      ofSource other = ofSource source) ∧
    ofSource (withReturns source) = ofSource source ∧
    (List.Forall₂ Recased (sourceLines source) (sourceLines other) →
      (ofSource other).program = (ofSource source).program ∧
      (ofSource other).messages.map Message.kind =
        (ofSource source).messages.map Message.kind) := by
  refine ⟨ofSource_eq_of_relaid, ofSource_eq_of_relaid (relaid_withReturns source),
    fun hlines => ?_⟩
  have houtline := map_eq_of_forall₂ (fun _ _ hline => Recased.outline_eq hline) hlines
  refine eq_of_outlines_eq ?_
  rw [readLines_eq, readLines_eq, List.map_map, List.map_map]
  exact houtline.symm

/-- A wide blank, a tab, a carriage return and other comments change nothing. Capitals in the
mnemonics, in the mark of a literal and among its digits leave the program and the warning. -/
theorem assembles_regardless_of_layout_of_changes :
    List.Forall₂ Relaid (sourceLines "set 0xaf ; a\nread")
        (sourceLines "\tset\u3000 0xaf\nread;b") ∧
      ofSource "\tset\u3000 0xaf\nread;b" = ofSource "set 0xaf ; a\nread" ∧
      ofSource "set 0xaf ; a\r\nread" = ofSource "set 0xaf ; a\nread" ∧
      List.Forall₂ Recased (sourceLines "set 0xaf ; a\nread")
        (sourceLines "Set 0XaF ; A\nREad") ∧
      (ofSource "Set 0XaF ; A\nREad").program = some [.set 175, .plain (.reserved .read)] ∧
      (ofSource "Set 0XaF ; A\nREad").messages.map Message.kind = [(2, false)] := by
  have hprogram : (ofSource "set 0xaf ; a\nread").program =
      some [.set 175, .plain (.reserved .read)] := by
    decide
  have hkinds : (ofSource "set 0xaf ; a\nread").messages.map Message.kind = [(2, false)] := by
    decide
  have hblank : Text.Blank [' '] := by decide
  have htab : Text.Blank ['\t'] := by decide
  have hwide : Text.Blank ['\u3000', ' '] := by decide
  have hfinish : Respaced "set 0xaf".toList "set 0xaf ".toList := .finish hblank _
  have hbetween : Respaced "set 0xaf".toList "set\u3000 0xaf".toList :=
    .between hblank (by decide) hwide (by decide) "set".toList "0xaf".toList
  have hstart : Respaced "set\u3000 0xaf".toList "\tset\u3000 0xaf".toList := .start htab _
  have hset : CodePart "set 0xaf ; a".toList "set 0xaf ".toList := codePart_iff.mpr (by decide)
  have hset' : CodePart "\tset\u3000 0xaf".toList "\tset\u3000 0xaf".toList :=
    codePart_iff.mpr (by decide)
  have hread : CodePart "read".toList "read".toList := codePart_iff.mpr (by decide)
  have hread' : CodePart "read;b".toList "read".toList := codePart_iff.mpr (by decide)
  have hlines : sourceLines "set 0xaf ; a\nread" = ["set 0xaf ; a".toList, "read".toList] := by
    decide
  have hrelaid : List.Forall₂ Relaid (sourceLines "set 0xaf ; a\nread")
      (sourceLines "\tset\u3000 0xaf\nread;b") := by
    have hlines' : sourceLines "\tset\u3000 0xaf\nread;b" =
        ["\tset\u3000 0xaf".toList, "read;b".toList] := by
      decide
    rw [hlines, hlines']
    refine .cons ⟨_, _, hset, hset', ?_⟩ (.cons ⟨_, _, hread, hread', .refl _⟩ .nil)
    refine .trans _ "set 0xaf".toList _ (.symm _ _ (.rel _ _ hfinish)) ?_
    exact .trans _ _ _ (.rel _ _ hbetween) (.rel _ _ hstart)
  have hrecased : List.Forall₂ Recased (sourceLines "set 0xaf ; a\nread")
      (sourceLines "Set 0XaF ; A\nREad") := by
    have hlines' : sourceLines "Set 0XaF ; A\nREad" =
        ["Set 0XaF ; A".toList, "REad".toList] := by
      decide
    rw [hlines, hlines']
    exact .cons ⟨_, _, hset, codePart_iff.mpr rfl, by decide⟩
      (.cons ⟨_, _, hread, codePart_iff.mpr rfl, by decide⟩ .nil)
  obtain ⟨hlayout, hreturns, _⟩ :=
    assembles_regardless_of_layout "set 0xaf ; a\nread" "\tset\u3000 0xaf\nread;b"
  obtain ⟨hsame, hmessages⟩ :=
    (assembles_regardless_of_layout "set 0xaf ; a\nread" "Set 0XaF ; A\nREad").2.2 hrecased
  exact ⟨hrelaid, hlayout hrelaid, hreturns, hrecased, hsame.trans hprogram,
    hmessages.trans hkinds⟩

end Assembly

end WordMachine
