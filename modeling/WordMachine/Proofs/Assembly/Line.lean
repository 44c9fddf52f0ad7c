import Mathlib.Data.List.TakeWhile
import WordMachine.Assembly.Line
import WordMachine.Proofs.Bytecode.Program
import WordMachine.Proofs.Text

/-!
# Lines of assembly and the instructions on them

The text of an instruction is a line on which that instruction is found again: its
mnemonic is a word of capital letters, and its literal is a word of digits behind a
blank. Whatever instruction is found on a line, its code belongs to an opcode and its
literal is a word.
-/

namespace WordMachine

namespace Opcode

/-- An opcode is found by its mnemonic. -/
@[simp] theorem ofMnemonic?_name (opcode : Opcode) :
    ofMnemonic? opcode.name.toList = some opcode := by
  rcases opcode with _ | ⟨_ | _ | _ | _ | _ | _ | _ | _ | ⟨_ | _⟩ | ⟨_ | _⟩⟩ <;> decide

/-- A mnemonic consists of letters. -/
theorem isAlphanum_of_mem_name (opcode : Opcode) :
    ∀ c ∈ opcode.name.toList, c.isAlphanum = true := by
  have hall : opcode.name.toList.all Char.isAlphanum = true := by
    rcases opcode with _ | ⟨_ | _ | _ | _ | _ | _ | _ | _ | ⟨_ | _⟩ | ⟨_ | _⟩⟩ <;> decide
  exact List.all_eq_true.mp hall

/-- A mnemonic is not empty. -/
theorem name_toList_ne_nil (opcode : Opcode) : opcode.name.toList ≠ [] := by
  rcases opcode with _ | ⟨_ | _ | _ | _ | _ | _ | _ | _ | ⟨_ | _⟩ | ⟨_ | _⟩⟩ <;> decide

end Opcode

namespace Assembly

/-- Letters and digits make up a single word of a line. -/
theorem words_of_isAlphanum {cs : List Char} (hne : cs ≠ [])
    (hcs : ∀ c ∈ cs, c.isAlphanum = true) : Text.words Text.isBlank cs = [cs] :=
  Text.words_of_forall hne fun c hc => Text.isBlank_of_isAlphanum (hcs c hc)

/-- Without a comment all words of a line count. -/
theorem lineWords_eq_words {line : List Char} (hline : ';' ∉ line) :
    lineWords line = Text.words Text.isBlank line := by
  have htake : line.takeWhile (· ≠ ';') = line :=
    List.takeWhile_eq_self_iff.mpr fun c hc => decide_eq_true fun heq => hline (heq ▸ hc)
  rw [lineWords, htake]

/-- A mnemonic that takes no operand is an instruction on its own. -/
theorem Line.read_of_words_plain {line : List Char} {op : Operation}
    (hwords : lineWords line = [(Opcode.plain op).name.toList]) :
    Line.read line = .instruction (.plain op) := by
  rw [Line.read, hwords]
  simp only [Opcode.ofMnemonic?_name, List.isEmpty_nil, if_true]

/-- The mnemonic of the literal opcode and the digits of a word are an instruction. -/
theorem Line.read_of_words_set {line : List Char} {n : Nat} (hn : IsWord n)
    (hwords : lineWords line = [Opcode.set.name.toList, Nat.toDigits 10 n]) :
    Line.read line = .instruction (.set n) := by
  rw [Line.read, hwords]
  simp only [Opcode.ofMnemonic?_name, readLiteral, Text.literal?_toDigits, if_pos hn]

end Assembly

namespace Instruction

/-- The text of a literal is the mnemonic, a blank and the digits. -/
theorem toList_text_set (n : Nat) :
    (set n).text.toList = Opcode.set.name.toList ++ ' ' :: Nat.toDigits 10 n := by
  have hdigits : (toString (n : Int)).toList = Nat.toDigits 10 n := Nat.toList_repr
  rw [text, String.toList_append, String.toList_append, hdigits, List.append_assoc]
  rfl

variable {inst : Instruction}

/-- The text of an instruction consists of letters and digits, and of the blank before a
literal. -/
theorem Known.isAlphanum_of_mem_text (hknown : inst.Known) (hrange : inst.InRange) :
    ∀ c ∈ inst.text.toList, c.isAlphanum = true ∨ c = ' ' := by
  intro c hc
  cases inst with
  | plain op => exact .inl ((Opcode.plain op).isAlphanum_of_mem_name c hc)
  | set literal =>
    obtain ⟨n, rfl⟩ := Int.eq_ofNat_of_zero_le hrange.1
    rw [toList_text_set, List.mem_append, List.mem_cons] at hc
    rcases hc with hname | hblank | hdigit
    · exact .inl (Opcode.set.isAlphanum_of_mem_name c hname)
    · exact .inr hblank
    · exact .inl (Text.isAlphanum_of_mem_toDigits hdigit)
  | unknown code => cases hknown

/-- The text of an instruction stays on one line and holds no comment. -/
theorem Known.not_mem_text (hknown : inst.Known) (hrange : inst.InRange) :
    '\n' ∉ inst.text.toList ∧ ';' ∉ inst.text.toList := by
  have hchars := hknown.isAlphanum_of_mem_text hrange
  constructor
  · intro hc
    exact absurd (hchars _ hc) (by decide)
  · intro hc
    exact absurd (hchars _ hc) (by decide)

/-- The words of a line that holds the text of an instruction are the mnemonic and, if there is
one, the literal. The instruction is found again on it. -/
theorem Known.read_text (hknown : inst.Known) (hrange : inst.InRange) :
    Assembly.Line.read inst.text.toList = .instruction inst := by
  have hwords := Assembly.lineWords_eq_words (hknown.not_mem_text hrange).2
  cases inst with
  | plain op =>
    have hname := (Opcode.plain op).isAlphanum_of_mem_name
    refine Assembly.Line.read_of_words_plain (hwords.trans ?_)
    exact Assembly.words_of_isAlphanum (Opcode.plain op).name_toList_ne_nil hname
  | set literal =>
    obtain ⟨n, rfl⟩ := Int.eq_ofNat_of_zero_le hrange.1
    have hdigits : ∀ c ∈ Nat.toDigits 10 n, c.isAlphanum = true := fun c hc =>
      Text.isAlphanum_of_mem_toDigits hc
    refine Assembly.Line.read_of_words_set hrange (hwords.trans ?_)
    rw [toList_text_set, Text.words_append_cons (by decide),
      Assembly.words_of_isAlphanum Opcode.set.name_toList_ne_nil Opcode.set.isAlphanum_of_mem_name,
      Assembly.words_of_isAlphanum Nat.toDigits_ne_nil hdigits]
    rfl
  | unknown code => cases hknown

end Instruction

namespace Assembly

/-- The operands of the literal opcode give a literal that is a word, or none at all. -/
theorem readLiteral_eq_instruction {operands : List (List Char)} {inst : Instruction}
    (h : readLiteral operands = .instruction inst) : inst.Known ∧ inst.InRange := by
  unfold readLiteral at h
  split at h
  · split at h
    · cases h
    · split at h
      · rename_i hword
        obtain rfl := Line.instruction.inj h
        exact ⟨rfl, hword⟩
      · cases h
  · cases h

/-- An instruction that is found on a line has a known code, and its literal is a word. -/
theorem Line.wellFormed_of_read {line : List Char} {inst : Instruction}
    (h : Line.read line = .instruction inst) : inst.Known ∧ inst.InRange := by
  unfold Line.read at h
  split at h
  · cases h
  · split at h
    · cases h
    · exact readLiteral_eq_instruction h
    · split at h
      · obtain rfl := Line.instruction.inj h
        exact ⟨rfl, trivial⟩
      · cases h

end Assembly

end WordMachine
