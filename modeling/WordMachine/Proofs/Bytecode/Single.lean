import WordMachine.Proofs.Bytecode.Program

/-!
# One instruction alone and in a stream

A single instruction is read from bytes that hold nothing else, while a stream is cut into
slices whose lengths are told by their first bytes. The two ways of reading accept the same
bytes for one instruction, namely its encoding. Bytes that a stream reads as several
instructions, or as one that is cut off, have further errors when they are to be one
instruction, and their lengths and first bytes tell which error it is.
-/

namespace WordMachine

/-- The bytes for which a kind of error is given when they are to be a single instruction. -/
def DecodeErrorKind.Describes (bytes : List UInt8) : DecodeErrorKind → Prop
  | noData => bytes = []
  | missingLiteral => bytes = [literalByte]
  | incompleteLiteral =>
    bytes.head? = some literalByte ∧ bytes.length ≠ 1 ∧ bytes.length ≠ literalLength
  | inappropriateLiteral => 1 < bytes.length ∧ bytes.head? ≠ some literalByte
  | invalidOpcode => ∃ byte, bytes = [byte] ∧ ∀ opcode ∈ Opcode.all, opcode.code ≠ byte.toNat

/-- Every opcode is among the 21 that are listed. -/
theorem Opcode.mem_all (opcode : Opcode) : opcode ∈ Opcode.all :=
  List.mem_of_find?_eq_some (ofCode?_code opcode)

/-- A byte stands for no opcode if it is the code of none of the 21. -/
theorem Opcode.ofByte?_eq_none_iff_all {byte : UInt8} :
    ofByte? byte = none ↔ ∀ opcode ∈ all, opcode.code ≠ byte.toNat := by
  rw [ofByte?_eq_none_iff]
  constructor
  · intro hnone opcode _
    exact hnone opcode
  · intro hnone opcode
    exact hnone opcode opcode.mem_all

/-- The literal byte is the only one that stands for the literal opcode. -/
theorem Opcode.ofByte?_eq_set_iff {byte : UInt8} :
    ofByte? byte = some .set ↔ byte = literalByte := by
  rw [ofByte?_eq_some_iff]
  constructor
  · intro hcode
    apply UInt8.toNat.inj
    exact hcode.symm
  · rintro rfl
    rfl

namespace DecodeErrorKind

variable {kind : DecodeErrorKind} {byte second : UInt8} {rest : List UInt8}

/-- Where there are no bytes, nothing else is wrong. -/
theorem describes_nil : kind.Describes [] ↔ kind = .noData := by
  cases kind <;> simp [Describes]

/-- A single byte lacks its literal, or it stands for no opcode. -/
theorem describes_singleton :
    kind.Describes [byte] ↔
      kind = .missingLiteral ∧ byte = literalByte ∨
        kind = .invalidOpcode ∧ ∀ opcode ∈ Opcode.all, opcode.code ≠ byte.toNat := by
  cases kind <;> simp [Describes]

/-- The first of several bytes takes a literal of another length, or it takes none. -/
theorem describes_cons_cons :
    kind.Describes (byte :: second :: rest) ↔
      kind = .incompleteLiteral ∧ byte = literalByte ∧ rest.length + 1 ≠ Word.width ∨
        kind = .inappropriateLiteral ∧ byte ≠ literalByte := by
  cases kind <;> simp [Describes, literalLength, Word.width]

end DecodeErrorKind

namespace Instruction

variable {bytes : List UInt8} {inst : Instruction}

/-- Bytes that are read as an instruction: they are its encoding, and no error fits them. -/
structure Reads (bytes : List UInt8) (inst : Instruction) : Prop where
  /-- The code belongs to an opcode. -/
  known : inst.Known
  /-- The literal is a word. -/
  inRange : inst.InRange
  /-- The bytes are those of the instruction. -/
  eq_encode : bytes = inst.encode
  /-- Nothing is wrong with the bytes. -/
  not_describes : ∀ kind : DecodeErrorKind, ¬ kind.Describes bytes

/-- Bytes that are refused as an instruction: one kind of error fits them. -/
structure Refuses (bytes : List UInt8) (error : DecodeError) : Prop where
  /-- The error is at the start of the bytes. -/
  offset_eq : error.offset = 0
  /-- The error is of the only kind that fits. -/
  describes_iff : ∀ kind : DecodeErrorKind, kind.Describes bytes ↔ kind = error.kind

/-- An operation is read from the byte that stands for it. -/
theorem reads_plain {byte : UInt8} {op : Operation} (h : Opcode.ofByte? byte = some (.plain op)) :
    Reads [byte] (.plain op) where
  known := rfl
  inRange := trivial
  eq_encode := by
    have hcode := Opcode.ofByte?_eq_some_iff.mp h
    have hbyte : byte = UInt8.ofNat op.code := by
      apply UInt8.toNat.inj
      exact hcode.symm.trans op.toNat_ofNat_code.symm
    rw [encode, hbyte]
  not_describes := by
    intro kind
    rw [DecodeErrorKind.describes_singleton, ← Opcode.ofByte?_eq_none_iff_all,
      ← Opcode.ofByte?_eq_set_iff, h]
    simp

/-- A literal is read from the literal byte and eight more. -/
theorem reads_set {payload : List UInt8} (hlength : payload.length = Word.width) :
    Reads (literalByte :: payload) (.set (Word.ofBytes payload)) where
  known := rfl
  inRange := Word.isWord_ofBytes payload
  eq_encode := by rw [encode, Word.toBytes_ofBytes hlength]
  not_describes := by
    intro kind
    cases payload with
    | nil => cases hlength
    | cons second rest =>
      have hothers : rest.length + 1 = Word.width := hlength
      rw [DecodeErrorKind.describes_cons_cons]
      simp [hothers]

/-- Bytes are read as the instruction that they encode, or they are refused with an error. -/
theorem decodeOne_cases (bytes : List UInt8) :
    (∃ inst, decodeOne bytes = .ok inst ∧ Reads bytes inst) ∨
      ∃ error, decodeOne bytes = .error error ∧ Refuses bytes error := by
  fun_cases decodeOne bytes with
  | case1 => exact .inr ⟨_, rfl, rfl, fun kind => DecodeErrorKind.describes_nil⟩
  | case2 byte hnone =>
    refine .inr ⟨_, rfl, rfl, fun kind => ?_⟩
    rw [DecodeErrorKind.describes_singleton, ← Opcode.ofByte?_eq_none_iff_all,
      ← Opcode.ofByte?_eq_set_iff, hnone]
    simp
  | case3 byte hset =>
    refine .inr ⟨_, rfl, rfl, fun kind => ?_⟩
    rw [DecodeErrorKind.describes_singleton, ← Opcode.ofByte?_eq_none_iff_all,
      ← Opcode.ofByte?_eq_set_iff, hset]
    simp
  | case4 byte op hplain => exact .inl ⟨_, rfl, reads_plain hplain⟩
  | case5 byte rest hrest hbyte =>
    refine .inr ⟨_, rfl, rfl, fun kind => ?_⟩
    obtain ⟨second, rest, rfl⟩ := List.exists_cons_of_ne_nil hrest
    rw [DecodeErrorKind.describes_cons_cons]
    simp [hbyte]
  | case6 byte rest hrest hbyte hlength =>
    refine .inr ⟨_, rfl, rfl, fun kind => ?_⟩
    obtain ⟨second, rest, rfl⟩ := List.exists_cons_of_ne_nil hrest
    obtain rfl := not_not.mp hbyte
    have hothers : rest.length + 1 ≠ Word.width := hlength
    rw [DecodeErrorKind.describes_cons_cons]
    simp [hothers]
  | case7 byte rest hrest hbyte hlength =>
    obtain rfl := not_not.mp hbyte
    exact .inl ⟨_, rfl, reads_set (not_not.mp hlength)⟩

/-- A single instruction is read exactly from its encoding. -/
theorem decodeOne_eq_ok_iff :
    decodeOne bytes = .ok inst ↔ inst.Known ∧ inst.InRange ∧ bytes = inst.encode := by
  constructor
  · intro h
    rcases decodeOne_cases bytes with ⟨other, hok, hreads⟩ | ⟨error, herror, _⟩
    · obtain rfl := Except.ok.inj (hok.symm.trans h)
      exact ⟨hreads.known, hreads.inRange, hreads.eq_encode⟩
    · rw [herror] at h
      cases h
  · rintro ⟨hknown, hrange, rfl⟩
    rw [hknown.decodeOne_encode, hrange.reduced_eq]

/-- A stream is read as a single instruction exactly from its encoding. -/
theorem decode_eq_singleton_iff :
    Program.decode bytes = .ok [inst] ↔ inst.Known ∧ inst.InRange ∧ bytes = inst.encode := by
  have hencode : Program.encode [inst] = inst.encode := by
    rw [Program.encode_cons]
    exact List.append_nil _
  constructor
  · intro h
    obtain ⟨hprogram, hbytes⟩ := Program.wellFormed_of_decode h
    obtain ⟨hknown, hrange⟩ := hprogram inst (by simp)
    exact ⟨hknown, hrange, by rw [← hbytes, hencode]⟩
  · rintro ⟨hknown, hrange, rfl⟩
    have hprogram : Program.WellFormed [inst] := by
      intro other hother
      obtain rfl := List.mem_singleton.mp hother
      exact ⟨hknown, hrange⟩
    rw [← hencode]
    exact hprogram.decode_encode

/-- Bytes are refused with an error of a kind exactly if the kind fits them. -/
theorem exists_decodeOne_eq_error_iff {kind : DecodeErrorKind} :
    (∃ error, decodeOne bytes = .error error ∧ error.kind = kind) ↔ kind.Describes bytes := by
  rcases decodeOne_cases bytes with ⟨inst, hok, hreads⟩ | ⟨error, herror, hrefuses⟩
  · have hno := hreads.not_describes kind
    simp [hok, hno]
  · rw [hrefuses.describes_iff kind, herror]
    constructor
    · rintro ⟨other, hsame, rfl⟩
      rw [Except.error.inj hsame]
    · rintro rfl
      exact ⟨error, rfl, rfl⟩

/-- The two ways of reading agree on single instructions. Bytes are read as an instruction exactly
if a stream of them is read as that instruction and nothing else, which is the case exactly if they
are its encoding. All other bytes are refused at the start: none at all, a literal byte alone, a
literal that is not eight bytes long, bytes behind an opcode that takes none, and a byte that is no
opcode. -/
theorem decodeOne_agrees_with_decode (bytes : List UInt8) :
    (∀ inst, decodeOne bytes = .ok inst ↔ Program.decode bytes = .ok [inst]) ∧
    (∀ inst, decodeOne bytes = .ok inst ↔ inst.Known ∧ inst.InRange ∧ bytes = inst.encode) ∧
    (∀ kind, (∃ error, decodeOne bytes = .error error ∧ error.kind = kind) ↔
      kind.Describes bytes) ∧
    ∀ error, decodeOne bytes = .error error → error.offset = 0 := by
  refine ⟨fun inst => ?_, fun inst => decodeOne_eq_ok_iff,
    fun kind => exists_decodeOne_eq_error_iff, fun error herror => ?_⟩
  · rw [decodeOne_eq_ok_iff, decode_eq_singleton_iff]
  · rcases decodeOne_cases bytes with ⟨inst, hok, _⟩ | ⟨other, hother, hrefuses⟩
    · rw [hok] at herror
      cases herror
    · obtain rfl := Except.error.inj (hother.symm.trans herror)
      exact hrefuses.offset_eq

/-- Ten bytes that a stream reads as two instructions are refused as one, while nine of them are
read either way. -/
theorem decodeOne_agrees_with_decode_of_tail :
    Program.decode [6, 0, 0, 0, 0, 0, 0, 0, 7, 1] = .ok [.set 7, .plain .halt] ∧
    (∃ error, decodeOne [6, 0, 0, 0, 0, 0, 0, 0, 7, 1] = .error error ∧
      error.kind = .incompleteLiteral ∧ error.offset = 0) ∧
    decodeOne [6, 0, 0, 0, 0, 0, 0, 0, 7] = .ok (.set 7) ∧
    Program.decode [6, 0, 0, 0, 0, 0, 0, 0, 7] = .ok [.set 7] := by
  obtain ⟨_, _, hkinds, hoffset⟩ := decodeOne_agrees_with_decode [6, 0, 0, 0, 0, 0, 0, 0, 7, 1]
  obtain ⟨hstream, hencoded, _⟩ := decodeOne_agrees_with_decode [6, 0, 0, 0, 0, 0, 0, 0, 7]
  obtain ⟨error, herror, hkind⟩ :=
    (hkinds .incompleteLiteral).mpr ⟨rfl, by decide, by decide⟩
  have hread := (hencoded (.set 7)).mpr ⟨rfl, by decide, by decide⟩
  exact ⟨by cbv, ⟨error, herror, hkind, hoffset error herror⟩, hread, (hstream _).mp hread⟩

end Instruction

end WordMachine
