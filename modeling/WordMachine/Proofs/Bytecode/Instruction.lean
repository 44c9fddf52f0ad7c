import WordMachine.Bytecode
import WordMachine.Proofs.Word.Bytes

/-!
# Single instructions as bytes

The first byte of an instruction tells how many bytes it takes, so that the bytes
of an instruction are known where they start. Bytes either start with an instruction
whose code belongs to an opcode and whose literal is a word, or they cannot be read,
and there are two reasons for that.
-/

namespace WordMachine

/-- A byte stands for the opcode with that code. -/
theorem Opcode.ofByte?_eq_some_iff {byte : UInt8} {opcode : Opcode} :
    ofByte? byte = some opcode ↔ opcode.code = byte.toNat := by
  constructor
  · intro h
    have hcode : (opcode.code : Int) = byte.toNat := by simpa using List.find?_some h
    exact Int.ofNat.inj hcode
  · intro h
    rw [ofByte?, ← h]
    exact ofCode?_code opcode

/-- A byte stands for no opcode if none has that code. -/
theorem Opcode.ofByte?_eq_none_iff {byte : UInt8} :
    ofByte? byte = none ↔ ∀ opcode : Opcode, opcode.code ≠ byte.toNat := by
  rw [Option.eq_none_iff_forall_ne_some]
  exact forall_congr' fun opcode => not_congr ofByte?_eq_some_iff

/-- The code of an operation is a byte. -/
theorem Operation.toNat_ofNat_code (op : Operation) : (UInt8.ofNat op.code).toNat = op.code := by
  rcases op with _ | _ | _ | _ | _ | _ | _ | _ | ⟨_ | _⟩ | ⟨_ | _⟩ <;> rfl

/-- The byte of an operation stands for it. -/
theorem Operation.ofByte?_ofNat_code (op : Operation) :
    Opcode.ofByte? (UInt8.ofNat op.code) = some (.plain op) :=
  Opcode.ofByte?_eq_some_iff.mpr op.toNat_ofNat_code.symm

/-- The literal opcode has the literal byte. -/
theorem ofByte?_literalByte : Opcode.ofByte? literalByte = some .set :=
  Opcode.ofByte?_eq_some_iff.mpr rfl

/-- A byte that does not stand for the literal opcode starts an instruction of one byte. -/
theorem instructionLength_of_ne {byte : UInt8} (h : Opcode.ofByte? byte ≠ some .set) :
    instructionLength byte = 1 := by
  refine if_neg fun hbyte => h ?_
  rw [hbyte]
  exact ofByte?_literalByte

namespace Instruction

/-- An instruction whose code belongs to an opcode. -/
def Known (inst : Instruction) : Prop :=
  inst.opcode?.isSome

instance : DecidablePred Known := fun inst =>
  inferInstanceAs (Decidable (inst.opcode?.isSome = true))

/-- The instruction with its literal taken modulo the number of words. -/
def reduced : Instruction → Instruction
  | plain op => plain op
  | set literal => set (literal % Word.modulus)
  | unknown code => unknown code

/-- An instruction whose literal is a word is left as it is. -/
theorem InRange.reduced_eq {inst : Instruction} (hrange : inst.InRange) :
    inst.reduced = inst := by
  cases inst with
  | plain op => rfl
  | set literal => rw [reduced, Word.emod_modulus_of_isWord hrange]
  | unknown code => rfl

/-- A literal is read from the eight bytes after the literal byte. -/
theorem decodeOne_literal {payload : List UInt8} (hlength : payload.length = Word.width) :
    decodeOne (literalByte :: payload) = .ok (.set (Word.ofBytes payload)) := by
  cases payload with
  | nil => cases hlength
  | cons first others =>
    rw [decodeOne, if_neg (not_not_intro rfl), if_neg (not_not_intro hlength)]
    exact fun hnil => nomatch hnil

/-- The bytes of an instruction are read as that instruction, with its literal reduced. -/
theorem Known.decodeOne_encode {inst : Instruction} (hknown : inst.Known) :
    decodeOne inst.encode = .ok inst.reduced := by
  cases inst with
  | plain op => simp only [encode, decodeOne, op.ofByte?_ofNat_code, reduced]
  | set literal =>
    rw [encode, decodeOne_literal (Word.length_toBytes literal), Word.ofBytes_toBytes, reduced]
  | unknown code => cases hknown

/-- The first byte of an instruction tells how many bytes there are. -/
theorem Known.encode_eq_cons {inst : Instruction} (hknown : inst.Known) :
    ∃ byte payload, inst.encode = byte :: payload ∧
      (byte :: payload).length = instructionLength byte := by
  cases inst with
  | plain op =>
    have hplain : Opcode.ofByte? (UInt8.ofNat op.code) ≠ some .set := by
      rw [op.ofByte?_ofNat_code]
      exact fun h => nomatch h
    exact ⟨_, [], rfl, (instructionLength_of_ne hplain).symm⟩
  | set literal =>
    refine ⟨literalByte, Word.toBytes literal, rfl, ?_⟩
    rw [List.length_cons, Word.length_toBytes]
    rfl
  | unknown code => cases hknown

end Instruction

/-- Bytes from some offset on that start with no instruction, and the error for them. -/
inductive Unreadable (offset : Nat) : List UInt8 → DecodeError → Prop
  /-- The first byte stands for no opcode. -/
  | opcode {byte : UInt8} {rest : List UInt8}
      (hbyte : ∀ opcode : Opcode, opcode.code ≠ byte.toNat) :
      Unreadable offset (byte :: rest)
        { kind := .invalidOpcode, offset, byte := some byte.toNat }
  /-- Some of the eight bytes of a literal are missing. -/
  | literal {rest : List UInt8} (hshort : (literalByte :: rest).length < literalLength) :
      Unreadable offset (literalByte :: rest) { kind := .incompleteLiteral, offset }

/-- The error is at the offset. -/
theorem Unreadable.offset_eq {offset : Nat} {bytes : List UInt8} {error : DecodeError}
    (h : Unreadable offset bytes error) : error.offset = offset := by
  cases h with
  | opcode => rfl
  | literal => rfl

/-- Either the opcode or the literal is to blame. -/
theorem Unreadable.kind_eq {offset : Nat} {bytes : List UInt8} {error : DecodeError}
    (h : Unreadable offset bytes error) :
    error.kind = .invalidOpcode ∨ error.kind = .incompleteLiteral := by
  cases h with
  | opcode => exact .inl rfl
  | literal => exact .inr rfl

/-- Bytes start with an instruction unless they cannot be read. -/
theorem exists_encode_append_or_unreadable (offset : Nat) (byte : UInt8) (rest : List UInt8) :
    (∃ inst others, inst.Known ∧ inst.InRange ∧
      byte :: rest = Instruction.encode inst ++ others) ∨
    ∃ error, Unreadable offset (byte :: rest) error := by
  cases hopcode : Opcode.ofByte? byte with
  | none => exact .inr ⟨_, .opcode (Opcode.ofByte?_eq_none_iff.mp hopcode)⟩
  | some opcode =>
    have hcode := Opcode.ofByte?_eq_some_iff.mp hopcode
    cases opcode with
    | plain op =>
      have hbyte : UInt8.ofNat op.code = byte :=
        UInt8.toNat.inj (op.toNat_ofNat_code.trans hcode)
      exact .inl ⟨.plain op, rest, rfl, trivial, by rw [Instruction.encode, hbyte]; rfl⟩
    | set =>
      obtain rfl : literalByte = byte := UInt8.toNat.inj hcode
      by_cases hshort : (literalByte :: rest).length < literalLength
      · exact .inr ⟨_, .literal hshort⟩
      · have hlength : (rest.take Word.width).length = Word.width := by
          simp only [List.length_cons, literalLength] at hshort
          simp only [List.length_take, Word.width]
          omega
        refine .inl ⟨.set (Word.ofBytes (rest.take Word.width)), rest.drop Word.width, rfl,
          Word.isWord_ofBytes _, ?_⟩
        rw [Instruction.encode, Word.toBytes_ofBytes hlength, List.cons_append,
          List.take_append_drop]

end WordMachine
