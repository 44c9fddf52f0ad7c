import Mathlib.Data.Nat.Log
import WordMachine.Proofs.Assembly.Bytes
import WordMachine.Rendering

/-!
# Listings lead back to the bytes

A listing has one line for each instruction: its index, filled up with blanks to the width of
the last index, two blanks and the text of the instruction. As no index is wider than the last
one, the texts start in the same column on all lines. Whatever stands before this column can
be cut off, and what is left is the source text of the program, from which the bytes are
assembled again.
-/

namespace WordMachine

namespace Text

/-- The lines of a text. -/
def lines (text : String) : List String :=
  (split (· = '\n') text.toList).map String.ofList

/-- A line without its first characters. -/
def cutLeft (width : Nat) (line : String) : String :=
  String.ofList (line.toList.drop width)

/-- Texts of one line each are the lines of what they are written below each other. -/
theorem lines_intercalate {texts : List String} (hne : texts ≠ [])
    (htexts : ∀ text ∈ texts, '\n' ∉ text.toList) : lines ("\n".intercalate texts) = texts := by
  rw [lines, split_intercalate hne htexts, List.map_map]
  simp [Function.comp_def]

/-- A text that is filled up has blanks in front of it. -/
theorem toList_padLeft (width : Nat) (text : String) :
    (padLeft width text).toList = List.replicate (width - text.length) ' ' ++ text.toList := by
  have hpush (n : Nat) : ("".pushn ' ' n).toList = List.replicate n ' ' := by
    induction n with
    | zero => rfl
    | succ n ih =>
      change (("".pushn ' ' n).push ' ').toList = _
      rw [String.toList_push, ih, List.replicate_succ']
  rw [padLeft, String.toList_append, hpush]

/-- The characters in front of a text that is filled up to a width, and of two blanks behind it,
are cut off at that width and two more. -/
theorem cutLeft_padLeft {width : Nat} {text : String} (h : text.length ≤ width) (rest : String) :
    cutLeft (width + 2) (padLeft width text ++ "  " ++ rest) = rest := by
  have hcolumn : (padLeft width text ++ "  ").toList.length = width + 2 := by
    rw [String.toList_append, List.length_append, toList_padLeft, List.length_append,
      List.length_replicate, String.length_toList, Nat.sub_add_cancel h]
    rfl
  rw [cutLeft, String.toList_append, ← hcolumn, List.drop_left, String.ofList_toList]

/-- A number has one decimal digit more than its logarithm tells. -/
theorem length_decimal (n : Nat) : (toString n).length = Nat.log 10 n + 1 := by
  have hlength : (toString n).length = (Nat.toDigits 10 n).length := by
    rw [← String.length_toList]
    exact congrArg List.length Nat.toList_repr
  rw [hlength]
  apply Nat.le_antisymm
  · exact (Nat.length_toDigits_le_iff (by decide) (Nat.succ_pos _)).mpr
      (Nat.lt_pow_succ_log_self (by decide) n)
  · have hpos : 0 < (Nat.toDigits 10 n).length := List.length_pos_iff.mpr Nat.toDigits_ne_nil
    have hlt : n < 10 ^ (Nat.toDigits 10 n).length :=
      (Nat.length_toDigits_le_iff (by decide) hpos).mp (Nat.le_refl _)
    by_cases hzero : n = 0
    · subst hzero
      exact hpos
    · exact (Nat.log_lt_iff_lt_pow (by decide) hzero).mpr hlt

end Text

namespace Program

/-- The number of characters in which the indices of a listing stand. -/
def columnWidth (program : Program) : Nat :=
  Nat.log 10 (program.length - 1) + 1

/-- The line of a listing for an instruction and its index. -/
def listingLine (program : Program) (inst : Instruction) (index : Nat) : String :=
  Text.padLeft program.columnWidth (toString index) ++ "  " ++ inst.text

variable {program : Program}

/-- The lines of a listing are those for the instructions, with their indices. -/
theorem listing_eq (program : Program) :
    program.listing = "\n".intercalate
      (program.zipIdx.map fun (inst, index) => program.listingLine inst index) := by
  simp only [listing, listingLine, columnWidth, Text.length_decimal]

/-- The characters of a line are the blanks that fill up the index, the index, two blanks and the
text of the instruction. -/
theorem toList_listingLine (program : Program) (inst : Instruction) (index : Nat) :
    (program.listingLine inst index).toList =
      List.replicate (program.columnWidth - (toString index).length) ' ' ++
        (toString index).toList ++ [' ', ' '] ++ inst.text.toList := by
  have hblanks : "  ".toList = [' ', ' '] := by decide
  rw [listingLine, String.toList_append, String.toList_append, Text.toList_padLeft, hblanks]

/-- No index is wider than its column. -/
theorem length_index_le {i : Nat} (hi : i < program.length) :
    (toString i).length ≤ program.columnWidth := by
  rw [Text.length_decimal, columnWidth]
  exact Nat.succ_le_succ (Nat.log_mono_right (by omega))

/-- An instruction that bytes can hold stays on one line of a listing. -/
theorem newline_notMem_listingLine {inst : Instruction} (hknown : inst.Known)
    (hrange : inst.InRange) (index : Nat) :
    '\n' ∉ (program.listingLine inst index).toList := by
  have hdigits : '\n' ∉ (toString index).toList := by
    intro hmem
    have hdigit : '\n' ∈ Nat.toDigits 10 index := Nat.toList_repr ▸ hmem
    exact absurd (Text.isAlphanum_of_mem_toDigits hdigit) (by decide)
  have hblanks (n : Nat) : '\n' ∉ List.replicate n ' ' := by
    intro hmem
    exact absurd (List.eq_of_mem_replicate hmem) (by decide)
  simp only [toList_listingLine, List.mem_append, not_or]
  exact ⟨⟨⟨hblanks _, hdigits⟩, by decide⟩, (hknown.not_mem_text hrange).1⟩

/-- A listing of instructions that bytes can hold has a line for each of them. -/
theorem WellFormed.lines_listing (hprogram : program.WellFormed) (hne : program ≠ []) :
    Text.lines program.listing =
      program.zipIdx.map fun (inst, index) => program.listingLine inst index := by
  rw [listing_eq]
  refine Text.lines_intercalate (by simpa using hne) fun line hline => ?_
  obtain ⟨⟨inst, index⟩, hinst, rfl⟩ := List.mem_map.mp hline
  obtain ⟨hknown, hrange⟩ := hprogram inst (List.fst_mem_of_mem_zipIdx hinst)
  exact newline_notMem_listingLine hknown hrange index

/-- Cut off at the column of the texts, the lines of a listing are the texts of the
instructions. -/
theorem WellFormed.cutLeft_listing (hprogram : program.WellFormed) (hne : program ≠ []) :
    (Text.lines program.listing).map (Text.cutLeft (program.columnWidth + 2)) =
      program.map Instruction.text := by
  rw [hprogram.lines_listing hne, List.map_map]
  calc
    program.zipIdx.map _ = program.zipIdx.map (Instruction.text ∘ Prod.fst) := by
      refine List.map_congr_left fun ⟨inst, index⟩ hinst => ?_
      have hindex : index < program.length := by
        simpa using List.snd_lt_of_mem_zipIdx hinst
      exact Text.cutLeft_padLeft (length_index_le hindex) inst.text
    _ = program.map Instruction.text := by rw [← List.map_map, List.zipIdx_map_fst]

end Program

/-- The listing of a program that is read from bytes is the only output of the command that lists
it. It has one line for each instruction: the index, filled up with blanks to the number of digits
of the last index, which none exceeds, then two blanks and the text of the instruction. With the
column of the indices and the two blanks cut off from every line, it is assembled into the same
bytes again. -/
theorem Command.list_leads_back {bytes : List UInt8} {program : Program}
    (hdecode : Program.decode bytes = .ok program) (hne : program ≠ []) :
    ∃ text, Command.list bytes = { code := 0, out := [text] } ∧
      let width := Nat.log 10 (program.length - 1) + 1
      (Text.lines text).length = program.length ∧
      (∀ (i : Nat) (inst : Instruction), program[i]? = some inst →
        (toString i).length ≤ width ∧ (Text.lines text)[i]? = some (String.ofList
          (List.replicate (width - (toString i).length) ' ' ++ (toString i).toList ++ [' ', ' '] ++
            inst.text.toList))) ∧
      Assembly.bytesOfSource
        ("\n".intercalate ((Text.lines text).map (Text.cutLeft (width + 2)))) = .ok bytes := by
  obtain ⟨hprogram, rfl⟩ := Program.wellFormed_of_decode hdecode
  have hlines := hprogram.lines_listing hne
  refine ⟨program.listing, ?_, ?_, fun i inst hinst => ⟨?_, ?_⟩, ?_⟩
  · rw [Command.list, hdecode]
    cases program with
    | nil => exact absurd rfl hne
    | cons inst program => rfl
  · rw [hlines, List.length_map, List.length_zipIdx]
  · obtain ⟨hindex, _⟩ := List.getElem?_eq_some_iff.mp hinst
    exact Program.length_index_le hindex
  · rw [hlines, List.getElem?_map, List.getElem?_zipIdx, hinst, Option.map_some, Option.map_some,
      Nat.zero_add]
    have hline : program.listingLine inst i = String.ofList _ :=
      String.toList_inj.mp ((program.toList_listingLine inst i).trans String.toList_ofList.symm)
    exact congrArg some hline
  · have hcut := hprogram.cutLeft_listing hne
    rw [Program.columnWidth] at hcut
    rw [hcut]
    have hsource : (Assembly.ofSource program.source).program = some program := by
      rw [Assembly.ofSource_source hprogram, Assembly.ofLines_map_instruction]
    exact (Assembly.bytes_of_program_eq_some hsource).1

/-- The eleventh instruction is the first whose index takes two characters. -/
theorem Command.list_leads_back_of_eleven :
    Program.decode [0, 0, 0, 0, 0, 0, 0, 0, 0, 5, 1] =
        .ok (List.replicate 9 (.plain .nop) ++ [.plain .pop, .plain .halt]) ∧
      ∃ text, Command.list [0, 0, 0, 0, 0, 0, 0, 0, 0, 5, 1] = { code := 0, out := [text] } ∧
        (Text.lines text).length = 11 ∧ (Text.lines text)[9]? = some " 9  POP" ∧
        (Text.lines text)[10]? = some "10  HALT" ∧
        Assembly.bytesOfSource ("\n".intercalate ((Text.lines text).map (Text.cutLeft 4))) =
          .ok [0, 0, 0, 0, 0, 0, 0, 0, 0, 5, 1] := by
  have hdecode : Program.decode [0, 0, 0, 0, 0, 0, 0, 0, 0, 5, 1] =
      .ok (List.replicate 9 (.plain .nop) ++ [.plain .pop, .plain .halt]) := by
    cbv
  obtain ⟨text, hlist, hlength, hlines, hbytes⟩ := Command.list_leads_back hdecode (by decide)
  refine ⟨hdecode, text, hlist, hlength, ?_, ?_, ?_⟩
  · exact (hlines 9 (.plain .pop) rfl).2.trans (by decide)
  · exact (hlines 10 (.plain .halt) rfl).2.trans (by decide)
  · exact hbytes

end WordMachine
