import WordMachine.Proofs.Assembly.Bytes
import WordMachine.Proofs.Text.Grammar

/-!
# The grammar of source lines

A line is blank, or it holds an instruction, or it is bad. A grammar says here which: what may
stand before a comment, with white space around and between a mnemonic and a literal. The
grammar and the reading of lines come to the same, so a source text is a program exactly if
it has no bad line. Remarks are made on the bad lines, each with one error whose text tells
the first thing that is wrong, and on the reserved operations.
-/

namespace WordMachine

namespace Opcode

variable {mnemonic : List Char} {opcode : Opcode}

/-- A mnemonic belongs to the opcode whose name it is in upper case. -/
theorem ofMnemonic?_eq_some_iff :
    ofMnemonic? mnemonic = some opcode ↔ Text.upperCase mnemonic = opcode.name.toList := by
  constructor
  · intro h
    have hname := List.find?_some h
    exact (of_decide_eq_true hname).symm
  · intro hname
    rw [ofMnemonic?, hname]
    rcases opcode with _ | ⟨_ | _ | _ | _ | _ | _ | _ | _ | ⟨_ | _⟩ | ⟨_ | _⟩⟩ <;> decide

/-- A mnemonic belongs to no opcode if it is no name in upper case. -/
theorem ofMnemonic?_eq_none_iff :
    ofMnemonic? mnemonic = none ↔
      ∀ opcode : Opcode, Text.upperCase mnemonic ≠ opcode.name.toList := by
  simp only [← ofMnemonic?_eq_some_iff, Option.eq_none_iff_forall_ne_some, ne_eq]

/-- There is no white space in a mnemonic. -/
theorem solid_of_upperCase_eq (opcode : Opcode)
    (hname : Text.upperCase mnemonic = opcode.name.toList) : Text.Solid mnemonic := by
  refine Text.solid_of_upperCase ?_
  rw [hname]
  exact ⟨opcode.name_toList_ne_nil, fun c hc =>
    Text.isBlank_of_isAlphanum (opcode.isAlphanum_of_mem_name c hc)⟩

end Opcode

namespace Assembly

/-- The lines of a source text, which are what lies between its line ends. -/
def sourceLines (source : String) : List (List Char) :=
  source.toList.splitOn '\n'

/-- The part of a line before its first semicolon, or all of it if there is none. -/
def CodePart (line code : List Char) : Prop :=
  ';' ∉ code ∧ (line = code ∨ ∃ comment, line = code ++ ';' :: comment)

/-- The texts that stand for instructions. A literal must be a word. -/
inductive Sentence : List Char → Instruction → Prop
  | plain {left mnemonic right : List Char} {op : Operation} (hleft : Text.Blank left)
    (hname : Text.upperCase mnemonic = op.name.toList) (hright : Text.Blank right) :
    Sentence (left ++ mnemonic ++ right) (.plain op)
  | set {left mnemonic between literal right : List Char} {value : Nat} (hleft : Text.Blank left)
    (hname : Text.upperCase mnemonic = "SET".toList) (hbetween : Text.Blank between)
    (hne : between ≠ []) (hliteral : Text.Literal literal value) (hvalue : value < 2 ^ 64)
    (hright : Text.Blank right) :
    Sentence (left ++ mnemonic ++ between ++ literal ++ right) (.set value)

/-- What is wrong with a text, in words. It is the first that applies: the mnemonic is not known,
the number of operands is not right, the literal is none, or it does not fit. -/
inductive Complaint (code : List Char) : String → Prop
  | unknownInstruction {mnemonic : List Char} {operands : List (List Char)}
    (hparts : Text.Parts code (mnemonic :: operands))
    (hname : ∀ opcode : Opcode, Text.upperCase mnemonic ≠ opcode.name.toList) :
    Complaint code ("Unknown instruction '" ++ String.ofList mnemonic ++ "'")
  | operandsGiven {mnemonic : List Char} {operands : List (List Char)} {op : Operation}
    (hparts : Text.Parts code (mnemonic :: operands))
    (hname : Text.upperCase mnemonic = op.name.toList) (hoperands : operands ≠ []) :
    Complaint code (op.name ++ " takes no operands")
  | literalCount {mnemonic : List Char} {operands : List (List Char)}
    (hparts : Text.Parts code (mnemonic :: operands))
    (hname : Text.upperCase mnemonic = "SET".toList) (hoperands : operands.length ≠ 1) :
    Complaint code "SET takes exactly one literal"
  | badLiteral {mnemonic literal : List Char} (hparts : Text.Parts code [mnemonic, literal])
    (hname : Text.upperCase mnemonic = "SET".toList)
    (hliteral : ∀ value, ¬ Text.Literal literal value) :
    Complaint code ("Bad literal '" ++ String.ofList literal ++ "'")
  | literalTooLarge {mnemonic literal : List Char} {value : Nat}
    (hparts : Text.Parts code [mnemonic, literal])
    (hname : Text.upperCase mnemonic = "SET".toList) (hliteral : Text.Literal literal value)
    (hvalue : 2 ^ 64 ≤ value) :
    Complaint code ("Literal '" ++ String.ofList literal ++ "' does not fit in 64 bits")

/-- A line with nothing but white space before its comment. -/
def BlankLine (line : List Char) : Prop :=
  ∃ code, CodePart line code ∧ Text.Blank code

/-- A line that holds an instruction before its comment. -/
def Denotes (line : List Char) (inst : Instruction) : Prop :=
  ∃ code, CodePart line code ∧ Sentence code inst

/-- A line that is neither blank nor holds an instruction. -/
def BadLine (line : List Char) : Prop :=
  ¬ BlankLine line ∧ ∀ inst, ¬ Denotes line inst

/-- A line with something wrong before its comment. -/
def Refused (line : List Char) (text : String) : Prop :=
  ∃ code, CodePart line code ∧ Complaint code text

variable {line code : List Char} {inst : Instruction}

/-- There is exactly one part of a line before its comment. -/
theorem codePart_iff : CodePart line code ↔ code = line.takeWhile (· ≠ ';') := by
  constructor
  · rintro ⟨hcode, hline⟩
    have hall : ∀ c ∈ code, decide (c ≠ ';') = true := fun c hc =>
      decide_eq_true fun heq => hcode (heq ▸ hc)
    rcases hline with rfl | ⟨comment, rfl⟩
    · exact (List.takeWhile_eq_self_iff.mpr hall).symm
    · rw [List.takeWhile_append_of_pos hall, List.takeWhile_cons_of_neg (by decide),
        List.append_nil]
  · rintro rfl
    refine ⟨fun hmem => ?_, ?_⟩
    · simpa using List.mem_takeWhile_imp hmem
    · have hline := List.takeWhile_append_dropWhile (p := fun c => decide (c ≠ ';')) (l := line)
      have hhead := List.head?_dropWhile_not (fun c => decide (c ≠ ';')) line
      cases hcomment : line.dropWhile (· ≠ ';') with
      | nil =>
        rw [hcomment, List.append_nil] at hline
        exact .inl hline.symm
      | cons c comment =>
        rw [hcomment] at hline hhead
        obtain rfl : c = ';' := by simpa using hhead
        exact .inr ⟨comment, hline.symm⟩

/-- The words of a line are the parts of what stands before its comment. -/
theorem CodePart.lineWords_eq_iff (hcode : CodePart line code) {parts : List (List Char)} :
    lineWords line = parts ↔ Text.Parts code parts := by
  rw [← Text.words_eq_iff, codePart_iff.mp hcode]
  rfl

/-- What a line holds says this about the part before its comment. -/
def Line.Describes : Line → List Char → Prop
  | blank, code => Text.Blank code
  | instruction inst, code => Sentence code inst
  | problem cause, code => Complaint code cause.text

variable {mnemonic : List Char} {operands : List (List Char)}

/-- A line that starts with no mnemonic. -/
theorem CodePart.read_of_unknown (hcode : CodePart line code)
    (hparts : Text.Parts code (mnemonic :: operands))
    (hname : ∀ opcode : Opcode, Text.upperCase mnemonic ≠ opcode.name.toList) :
    Line.read line = .problem (.unknownInstruction (String.ofList mnemonic)) := by
  rw [Line.read, hcode.lineWords_eq_iff.mpr hparts]
  simp only [Opcode.ofMnemonic?_eq_none_iff.mpr hname]

/-- A line that starts with the mnemonic of the literal opcode. -/
theorem CodePart.read_of_set (hcode : CodePart line code)
    (hparts : Text.Parts code (mnemonic :: operands))
    (hname : Text.upperCase mnemonic = "SET".toList) : Line.read line = readLiteral operands := by
  have hlookup : Opcode.ofMnemonic? mnemonic = some .set :=
    Opcode.ofMnemonic?_eq_some_iff.mpr hname
  rw [Line.read, hcode.lineWords_eq_iff.mpr hparts]
  simp only [hlookup]

/-- A line that starts with the mnemonic of an operation. -/
theorem CodePart.read_of_plain {op : Operation} (hcode : CodePart line code)
    (hparts : Text.Parts code (mnemonic :: operands))
    (hname : Text.upperCase mnemonic = op.name.toList) :
    Line.read line =
      if operands = [] then .instruction (.plain op) else .problem (.operandsGiven op) := by
  have hlookup : Opcode.ofMnemonic? mnemonic = some (.plain op) :=
    Opcode.ofMnemonic?_eq_some_iff.mpr hname
  rw [Line.read, hcode.lineWords_eq_iff.mpr hparts]
  simp only [hlookup, List.isEmpty_iff]

/-- What is read behind the mnemonic of the literal opcode describes the text. -/
theorem describes_readLiteral (hparts : Text.Parts code (mnemonic :: operands))
    (hname : Text.upperCase mnemonic = "SET".toList) : (readLiteral operands).Describes code := by
  unfold readLiteral
  split
  · rename_i literal
    split
    · rename_i hnone
      exact .badLiteral hparts hname (Text.literal?_eq_none_iff.mp hnone)
    · rename_i value hsome
      have hliteral := Text.literal?_eq_some_iff.mp hsome
      split
      · rename_i hword
        obtain ⟨_, _, left, between, right, hleft, hbetween, hne, hright, rfl⟩ :=
          Text.parts_pair_iff.mp hparts
        exact .set hleft hname hbetween hne hliteral (isWord_natCast_iff.mp hword) hright
      · rename_i hlarge
        refine .literalTooLarge hparts hname hliteral ?_
        rwa [isWord_natCast_iff, Nat.not_lt] at hlarge
  · rename_i hcount
    refine .literalCount hparts hname fun hone => ?_
    obtain ⟨operand, rfl⟩ := List.length_eq_one_iff.mp hone
    exact hcount operand rfl

/-- What is read from a line describes the part before its comment. -/
theorem CodePart.describes_read (hcode : CodePart line code) :
    (Line.read line).Describes code := by
  cases hwords : lineWords line with
  | nil =>
    rw [Line.read, hwords]
    exact Text.parts_nil_iff.mp (hcode.lineWords_eq_iff.mp hwords)
  | cons mnemonic operands =>
    have hparts := hcode.lineWords_eq_iff.mp hwords
    cases hlookup : Opcode.ofMnemonic? mnemonic with
    | none =>
      have hname := Opcode.ofMnemonic?_eq_none_iff.mp hlookup
      rw [hcode.read_of_unknown hparts hname]
      exact .unknownInstruction hparts hname
    | some opcode =>
      have hname := Opcode.ofMnemonic?_eq_some_iff.mp hlookup
      cases opcode with
      | set =>
        rw [hcode.read_of_set hparts hname]
        exact describes_readLiteral hparts hname
      | plain op =>
        rw [hcode.read_of_plain hparts hname]
        split
        · rename_i hnone
          subst hnone
          obtain ⟨_, left, right, hleft, hright, rfl⟩ := Text.parts_singleton_iff.mp hparts
          exact .plain hleft hname hright
        · rename_i hoperands
          exact .operandsGiven hparts hname hoperands

/-- What is read from a line describes the part before its comment, which there always is. -/
theorem exists_describes {held : Line} (h : Line.read line = held) :
    ∃ code, CodePart line code ∧ held.Describes code := by
  have hcode : CodePart line (line.takeWhile (· ≠ ';')) := codePart_iff.mpr rfl
  exact ⟨_, hcode, h ▸ hcode.describes_read⟩

/-- A line with nothing but white space is read as blank. -/
theorem CodePart.read_of_blank (hcode : CodePart line code) (h : Text.Blank code) :
    Line.read line = .blank := by
  rw [Line.read, hcode.lineWords_eq_iff.mpr (.nil h)]

/-- A line with the text of an instruction is read as that instruction. -/
theorem CodePart.read_of_sentence (hcode : CodePart line code) (h : Sentence code inst) :
    Line.read line = .instruction inst := by
  cases h with
  | @plain left _ right op hleft hname hright =>
    have hsolid := Opcode.solid_of_upperCase_eq (.plain op) hname
    have hparts := Text.parts_singleton_iff.mpr ⟨hsolid, left, right, hleft, hright, rfl⟩
    rw [hcode.read_of_plain hparts hname, if_pos rfl]
  | @set left _ between literal right value hleft hname hbetween hne hliteral hvalue hright =>
    have hsolid := Opcode.solid_of_upperCase_eq .set hname
    have hparts := Text.parts_pair_iff.mpr
      ⟨hsolid, hliteral.solid, left, between, right, hleft, hbetween, hne, hright, rfl⟩
    rw [hcode.read_of_set hparts hname]
    simp only [readLiteral, Text.literal?_eq_some_iff.mpr hliteral,
      if_pos (isWord_natCast_iff.mpr hvalue)]

/-- A line with something wrong is read as a problem of that wording. -/
theorem CodePart.read_of_complaint (hcode : CodePart line code) {text : String}
    (h : Complaint code text) : ∃ cause, Line.read line = .problem cause ∧ cause.text = text := by
  cases h with
  | unknownInstruction hparts hname => exact ⟨_, hcode.read_of_unknown hparts hname, rfl⟩
  | @operandsGiven _ _ op hparts hname hoperands =>
    refine ⟨.operandsGiven op, ?_, rfl⟩
    rw [hcode.read_of_plain hparts hname, if_neg hoperands]
  | literalCount hparts hname hoperands =>
    refine ⟨.literalCount, ?_, rfl⟩
    rw [hcode.read_of_set hparts hname]
    unfold readLiteral
    split
    · exact absurd rfl hoperands
    · rfl
  | @badLiteral _ literal hparts hname hliteral =>
    refine ⟨.badLiteral (String.ofList literal), ?_, rfl⟩
    rw [hcode.read_of_set hparts hname]
    simp only [readLiteral, Text.literal?_eq_none_iff.mpr hliteral]
  | @literalTooLarge _ literal value hparts hname hliteral hvalue =>
    have hlarge : ¬ IsWord (value : Int) := by rwa [isWord_natCast_iff, Nat.not_lt]
    refine ⟨.literalTooLarge (String.ofList literal), ?_, rfl⟩
    rw [hcode.read_of_set hparts hname]
    simp only [readLiteral, Text.literal?_eq_some_iff.mpr hliteral, if_neg hlarge]

/-- A line is blank exactly if it is read so. -/
theorem blankLine_iff : BlankLine line ↔ Line.read line = .blank := by
  constructor
  · rintro ⟨code, hcode, hblank⟩
    exact hcode.read_of_blank hblank
  · exact exists_describes

/-- A line holds an instruction exactly if it is read so. -/
theorem denotes_iff : Denotes line inst ↔ Line.read line = .instruction inst := by
  constructor
  · rintro ⟨code, hcode, hsentence⟩
    exact hcode.read_of_sentence hsentence
  · exact exists_describes

/-- A line is refused exactly if it is read as a problem, and the problem has the same wording. -/
theorem refused_iff {text : String} :
    Refused line text ↔ ∃ cause, Line.read line = .problem cause ∧ cause.text = text := by
  constructor
  · rintro ⟨code, hcode, hcomplaint⟩
    exact hcode.read_of_complaint hcomplaint
  · rintro ⟨cause, hread, rfl⟩
    exact exists_describes hread

/-- A line is bad exactly if it is read as a problem. -/
theorem badLine_iff : BadLine line ↔ ∃ cause, Line.read line = .problem cause := by
  simp only [BadLine, blankLine_iff, denotes_iff]
  cases Line.read line with
  | blank => simp
  | instruction inst => simp
  | problem cause => simp

/-- A line that holds an instruction. -/
def InstructionLine (line : List Char) : Prop :=
  ∃ inst, Denotes line inst

/-- A line that is remarked on: it is bad, or its operation is reserved. -/
def RemarkedLine (line : List Char) : Prop :=
  BadLine line ∨ ∃ op, Denotes line (.plain (.reserved op))

/-- The message on a numbered line. It is an error with the text of what is wrong with a bad line,
or a warning about a reserved operation. -/
def Concerns (numbered : List Char × Nat) (message : Message) : Prop :=
  message.line = numbered.2 ∧
    (BadLine numbered.1 ∧ message.remark.isError = true ∧
        Refused numbered.1 message.remark.text ∨
      ∃ op, Denotes numbered.1 (.plain (.reserved op)) ∧ message.remark.isError = false ∧
        message.remark.text = (Operation.reserved op).name ++ " is reserved and will not execute")

/-- The instruction lines are those on which an instruction is found. -/
theorem instructionLine_iff : InstructionLine line ↔ (Line.read line).instruction?.isSome := by
  simp only [InstructionLine, denotes_iff, Option.isSome_iff_exists,
    Line.instruction?_eq_some_iff]

/-- The lines that are remarked on are those with a remark. -/
theorem remarkedLine_iff : RemarkedLine line ↔ (Line.read line).remark?.isSome := by
  simp only [RemarkedLine, badLine_iff, denotes_iff, Option.isSome_iff_exists,
    Line.remark?_eq_some_iff]
  constructor
  · rintro (⟨cause, hread⟩ | ⟨op, hread⟩)
    · exact ⟨_, .inl ⟨cause, hread, rfl⟩⟩
    · exact ⟨_, .inr ⟨op, hread, rfl⟩⟩
  · rintro ⟨_, ⟨cause, hread, _⟩ | ⟨op, hread, _⟩⟩
    · exact .inl ⟨cause, hread⟩
    · exact .inr ⟨op, hread⟩

instance : DecidablePred InstructionLine := fun _ => decidable_of_iff _ instructionLine_iff.symm

instance : DecidablePred RemarkedLine := fun _ => decidable_of_iff _ remarkedLine_iff.symm

/-- The items for which there is something stand in the same order as what there is for them. -/
theorem forall₂_filter_filterMap {α β : Type} {p : α → Prop} [DecidablePred p] {f : α → Option β}
    {R : α → β → Prop} (hp : ∀ a, p a ↔ (f a).isSome) (hR : ∀ a b, f a = some b → R a b)
    (items : List α) : List.Forall₂ R (items.filter p) (items.filterMap f) := by
  induction items with
  | nil => exact .nil
  | cons a items ih =>
    cases hf : f a with
    | none =>
      have hnot : ¬ p a := by simp [hp, hf]
      simpa [hf, hnot] using ih
    | some b =>
      have hholds : p a := by simp [hp, hf]
      simpa [hf, hholds] using ⟨hR a b hf, ih⟩

/-- The lines of a source text are read one by one. -/
theorem readLines_eq (source : String) :
    readLines source = (sourceLines source).map Line.read := by
  rw [readLines, Text.split_eq_splitOnP]
  rfl

/-- A source text is a program exactly if none of its lines is a problem. -/
theorem isSome_program_iff_readLines (source : String) :
    (ofSource source).program.isSome ↔
      ∀ line ∈ readLines source, ∀ cause, line ≠ .problem cause := by
  rw [isSome_program_iff]
  constructor
  · rintro hharmless _ hline cause rfl
    obtain ⟨i, hi⟩ := List.getElem?_of_mem hline
    have hmessage : { line := 1 + i, remark := .problem cause } ∈ (ofSource source).messages :=
      mem_messagesFrom_iff.mpr ⟨i, _, hi, rfl, rfl⟩
    cases hharmless _ hmessage
  · intro hlines message hmessage
    obtain ⟨i, line, hi, hremark, _⟩ := mem_messagesFrom_iff.mp hmessage
    rcases Line.remark?_eq_some_iff.mp hremark with ⟨cause, hline, _⟩ | ⟨op, _, hreserved⟩
    · exact absurd hline (hlines line (List.mem_of_getElem? hi) cause)
    · rw [hreserved]
      rfl

/-- The program of a source text is what its instruction lines denote, in their order. -/
theorem denotes_program {source : String} {program : Program}
    (h : (ofSource source).program = some program) :
    List.Forall₂ Denotes ((sourceLines source).filter InstructionLine) program := by
  rw [program_eq, Option.ite_none_left_eq_some, readLines_eq, List.filterMap_map] at h
  obtain rfl := Option.some.inj h.2
  refine forall₂_filter_filterMap (fun line => instructionLine_iff) (fun line inst hinst => ?_) _
  exact denotes_iff.mpr (Line.instruction?_eq_some_iff.mp hinst)

/-- The messages are made from the numbered lines of the source text. -/
theorem messages_eq (source : String) :
    (ofSource source).messages = ((sourceLines source).zipIdx 1).filterMap fun (line, number) =>
      (Line.read line).remark?.map fun remark => { line := number, remark } := by
  have hmessages : (ofSource source).messages = messagesFrom 1 (readLines source) := rfl
  rw [hmessages, readLines_eq, messagesFrom, List.zipIdx_map, List.filterMap_map]
  rfl

/-- The remark on a line is made in a message that concerns the line. -/
theorem concerns_of_remark? {number : Nat} {remark : Remark}
    (h : (Line.read line).remark? = some remark) :
    Concerns (line, number) { line := number, remark } := by
  refine ⟨rfl, ?_⟩
  rcases Line.remark?_eq_some_iff.mp h with ⟨cause, hread, rfl⟩ | ⟨op, hread, rfl⟩
  · exact .inl ⟨badLine_iff.mpr ⟨cause, hread⟩, rfl, refused_iff.mpr ⟨cause, hread, rfl⟩⟩
  · exact .inr ⟨op, denotes_iff.mpr hread, rfl, rfl⟩

/-- A source text is assembled by the grammar of its lines. It is a program exactly if no line is
bad, and the program is what the instruction lines denote, in their order. There is one message for
each line that is bad or holds a reserved operation, in the order of the lines, and no other. On a
bad line it is an error that tells the first thing that is wrong, on the others a warning. No line
denotes two instructions or calls for two texts. -/
theorem assembles_by_grammar (source : String) :
    ((ofSource source).program.isSome ↔ ∀ line ∈ sourceLines source, ¬ BadLine line) ∧
    (∀ program, (ofSource source).program = some program →
      List.Forall₂ Denotes ((sourceLines source).filter InstructionLine) program) ∧
    List.Forall₂ Concerns (((sourceLines source).zipIdx 1).filter (RemarkedLine ·.1))
      (ofSource source).messages ∧
    (ofSource source).messages.Pairwise (·.line < ·.line) ∧
    (∀ line, InstructionLine line → ∃! inst, Denotes line inst) ∧
    ∀ line, BadLine line → ∃! text, Refused line text := by
  refine ⟨?_, fun program hprogram => ?_, ?_, pairwise_messages source, fun line hline => ?_,
    fun line hbad => ?_⟩
  · rw [isSome_program_iff_readLines, readLines_eq]
    simp only [badLine_iff, List.forall_mem_map, not_exists, ne_eq]
  · exact denotes_program hprogram
  · rw [messages_eq]
    refine forall₂_filter_filterMap (fun numbered => ?_) (fun numbered message hmessage => ?_) _
    · rw [Option.isSome_map]
      exact remarkedLine_iff
    · obtain ⟨remark, hremark, rfl⟩ := Option.map_eq_some_iff.mp hmessage
      exact concerns_of_remark? hremark
  · obtain ⟨inst, hinst⟩ := hline
    refine ⟨inst, hinst, fun other hother => ?_⟩
    exact Line.instruction.inj ((denotes_iff.mp hother).symm.trans (denotes_iff.mp hinst))
  · obtain ⟨cause, hread⟩ := badLine_iff.mp hbad
    refine ⟨cause.text, refused_iff.mpr ⟨cause, hread, rfl⟩, fun text htext => ?_⟩
    obtain ⟨other, hother, rfl⟩ := refused_iff.mp htext
    obtain rfl := Line.problem.inj (hread.symm.trans hother)
    rfl

/-- Wide blanks, foreign letters and a capital mark are no obstacle to an instruction. A line with
two literals is bad and has one error. -/
theorem assembles_by_grammar_of_foreign_letters :
    (ofSource "; c\n\u3000\u017fet\t0X1f ;x\nJump\u0131f").program =
        some [.set 31, .plain (.reserved .jumpIf)] ∧
      List.Forall₂ Denotes ["\u3000\u017fet\t0X1f ;x".toList, "Jump\u0131f".toList]
        [.set 31, .plain (.reserved .jumpIf)] ∧
      BadLine "set 1 2".toList ∧ ∃! text, Refused "set 1 2".toList text := by
  have hprogram : (ofSource "; c\n\u3000\u017fet\t0X1f ;x\nJump\u0131f").program =
      some [.set 31, .plain (.reserved .jumpIf)] := by
    decide
  have hlines : (sourceLines "; c\n\u3000\u017fet\t0X1f ;x\nJump\u0131f").filter InstructionLine =
      ["\u3000\u017fet\t0X1f ;x".toList, "Jump\u0131f".toList] := by
    decide
  have hbad : BadLine "set 1 2".toList := badLine_iff.mpr ⟨.literalCount, by decide⟩
  obtain ⟨_, hdenotes, _, _, _, hrefused⟩ :=
    assembles_by_grammar "; c\n\u3000\u017fet\t0X1f ;x\nJump\u0131f"
  exact ⟨hprogram, hlines ▸ hdenotes _ hprogram, hbad, hrefused _ hbad⟩

end Assembly

end WordMachine
