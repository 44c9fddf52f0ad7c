import WordMachine.Proofs.Bytecode.Instruction

/-!
# Programs as bytes

Bytes are read from left to right, and what is read up to some offset does not
depend on what follows. Every sequence of bytes is the encoding of a program with
nothing behind it, or with something behind it that cannot be read. In the first case
this is the program that decoding gives, and in the second the remainder decides on
the error, whose offset is the length of the encoding.
-/

namespace WordMachine.Program

/-- A program that bytes can hold: its codes belong to opcodes and its literals are words. -/
def WellFormed (program : Program) : Prop :=
  ∀ inst ∈ program, inst.Known ∧ inst.InRange

instance : DecidablePred WellFormed := fun program =>
  inferInstanceAs (Decidable (∀ inst ∈ program, inst.Known ∧ inst.InRange))

/-- The bytes of a program are those of its first instruction and of the others. -/
theorem encode_cons (inst : Instruction) (program : Program) :
    encode (inst :: program) = inst.encode ++ encode program :=
  List.flatMap_cons

/-- The bytes of two programs in a row are those of the one and of the other. -/
theorem encode_append (first second : Program) :
    encode (first ++ second) = encode first ++ encode second :=
  List.flatMap_append

/-- The literals of a well-formed program are left as they are. -/
theorem WellFormed.map_reduced {program : Program} (hprogram : program.WellFormed) :
    program.map Instruction.reduced = program := by
  rw [List.map_congr_left fun inst hinst => (hprogram inst hinst).2.reduced_eq]
  exact List.map_id' program

/-- A slice of the right length that is an instruction is read, and the rest follows. -/
theorem decodeFrom_of_decodeOne {byte : UInt8} {payload : List UInt8} {inst : Instruction}
    (hlength : (byte :: payload).length = instructionLength byte)
    (hone : Instruction.decodeOne (byte :: payload) = .ok inst) (offset : Nat) (read : Program)
    (rest : List UInt8) :
    decodeFrom offset read (byte :: payload ++ rest) =
      decodeFrom (offset + (byte :: payload).length) (inst :: read) rest := by
  have hslice : (byte :: (payload ++ rest)).take (instructionLength byte) = byte :: payload := by
    rw [← hlength, ← List.cons_append, List.take_left]
  have hrest : (payload ++ rest).drop (instructionLength byte - 1) = rest := by
    rw [← hlength, List.length_cons, Nat.add_sub_cancel, List.drop_left]
  rw [List.cons_append, decodeFrom]
  simp only [hslice, hone, hrest]
  rw [if_neg (by omega), hlength]

/-- The bytes of an instruction are read wherever they start. -/
theorem decodeFrom_encode_append {inst : Instruction} (hknown : inst.Known) (offset : Nat)
    (read : Program) (rest : List UInt8) :
    decodeFrom offset read (inst.encode ++ rest) =
      decodeFrom (offset + inst.encode.length) (inst.reduced :: read) rest := by
  have hone := hknown.decodeOne_encode
  obtain ⟨byte, payload, hencode, hlength⟩ := hknown.encode_eq_cons
  rw [hencode] at hone ⊢
  exact decodeFrom_of_decodeOne hlength hone offset read rest

/-- The bytes of a program are read wherever they start. -/
theorem decodeFrom_append {program : Program} (hknown : ∀ inst ∈ program, inst.Known)
    (offset : Nat) (read : Program) (rest : List UInt8) :
    decodeFrom offset read (program.encode ++ rest) =
      decodeFrom (offset + program.encode.length)
        ((program.map Instruction.reduced).reverse ++ read) rest := by
  induction program generalizing offset read with
  | nil => rfl
  | cons inst program ih =>
    have hinst : inst.Known := hknown inst (by simp)
    have hothers : ∀ other ∈ program, other.Known := fun other hother =>
      hknown other (by simp [hother])
    rw [encode_cons, List.append_assoc, decodeFrom_encode_append hinst, ih hothers,
      List.length_append, Nat.add_assoc, List.map_cons, List.reverse_cons, List.append_assoc]
    rfl

/-- The bytes of a program are decoded as that program, with its literals reduced. -/
theorem decode_encode {program : Program} (hknown : ∀ inst ∈ program, inst.Known) :
    decode program.encode = .ok (program.map Instruction.reduced) := by
  have hread := decodeFrom_append hknown 0 [] []
  rw [List.append_nil, List.append_nil] at hread
  rw [decode, hread, decodeFrom, List.reverse_reverse]

/-- The bytes of a well-formed program are decoded as that program. -/
theorem WellFormed.decode_encode {program : Program} (hprogram : program.WellFormed) :
    decode program.encode = .ok program := by
  rw [Program.decode_encode fun inst hinst => (hprogram inst hinst).1, hprogram.map_reduced]

/-- Bytes that cannot be read end the decoding with the error for them. -/
theorem decodeFrom_of_unreadable {offset : Nat} {rest : List UInt8} {error : DecodeError}
    (h : Unreadable offset rest error) (read : Program) :
    decodeFrom offset read rest = .error error := by
  cases h with
  | @opcode byte rest hbyte =>
    have hopcode := Opcode.ofByte?_eq_none_iff.mpr hbyte
    have hlength : instructionLength byte = 1 := by
      refine instructionLength_of_ne ?_
      rw [hopcode]
      exact fun h => nomatch h
    rw [decodeFrom, hlength]
    simp [Instruction.decodeOne, hopcode, DecodeError.moveTo]
  | @literal rest hshort =>
    have hlength : instructionLength literalByte = literalLength := if_pos rfl
    have hslice : ((literalByte :: rest).take literalLength).length < literalLength :=
      Nat.lt_of_le_of_lt (List.length_take_le' _ _) hshort
    rw [decodeFrom, hlength]
    exact if_pos hslice

/-- The bytes are those of a program up to an instruction that cannot be read. -/
structure StopsAt (program : Program) (bytes : List UInt8) (error : DecodeError) : Prop where
  /-- Bytes can hold the program. -/
  wellFormed : program.WellFormed
  /-- What follows the program cannot be read. -/
  unreadable : ∃ rest, bytes = program.encode ++ rest ∧
    Unreadable program.encode.length rest error

/-- Decoding reports the instruction that cannot be read. -/
theorem StopsAt.decode_eq {program : Program} {bytes : List UInt8} {error : DecodeError}
    (h : program.StopsAt bytes error) : decode bytes = .error error := by
  obtain ⟨rest, rfl, hrest⟩ := h.unreadable
  rw [decode, decodeFrom_append fun inst hinst => (h.wellFormed inst hinst).1, Nat.zero_add]
  exact decodeFrom_of_unreadable hrest _

/-- Nothing else than one program stands before the instruction that cannot be read. -/
theorem StopsAt.unique {program other : Program} {bytes : List UInt8} {error : DecodeError}
    (h : program.StopsAt bytes error) (hother : other.StopsAt bytes error) :
    program = other := by
  obtain ⟨rest, hbytes, hrest⟩ := h.unreadable
  obtain ⟨rest', hbytes', hrest'⟩ := hother.unreadable
  have hlength : program.encode.length = other.encode.length :=
    Int.ofNat.inj (hrest.offset_eq.symm.trans hrest'.offset_eq)
  obtain ⟨hencode, _⟩ := List.append_inj (hbytes.symm.trans hbytes') hlength
  have hdecode := h.wellFormed.decode_encode
  rw [hencode, hother.wellFormed.decode_encode] at hdecode
  exact (Except.ok.inj hdecode).symm

/-- Bytes from some offset on are those of a program, with nothing behind it or with bytes
that cannot be read. -/
theorem exists_encode_append (offset : Nat) (bytes : List UInt8) :
    ∃ program rest, WellFormed program ∧ bytes = program.encode ++ rest ∧
      (rest = [] ∨ ∃ error, Unreadable (offset + program.encode.length) rest error) := by
  -- The bytes of an instruction are not empty, so the length decreases.
  induction hsize : bytes.length using Nat.strongRecOn generalizing offset bytes with
  | ind size ih =>
    cases bytes with
    | nil => exact ⟨[], [], by decide, rfl, .inl rfl⟩
    | cons byte rest =>
      rcases exists_encode_append_or_unreadable offset byte rest with
        ⟨inst, others, hknown, hrange, hbytes⟩ | ⟨error, herror⟩
      · obtain ⟨first, payload, hencode, _⟩ := hknown.encode_eq_cons
        have hless : others.length < size := by
          rw [← hsize, hbytes, hencode, List.length_append, List.length_cons]
          omega
        obtain ⟨program, rest, hprogram, rfl, hrest⟩ :=
          ih others.length hless (offset + inst.encode.length) others rfl
        refine ⟨inst :: program, rest, ?_, ?_, ?_⟩
        · exact List.forall_mem_cons.mpr ⟨⟨hknown, hrange⟩, hprogram⟩
        · rw [hbytes, encode_cons, List.append_assoc]
        · rw [encode_cons, List.length_append, ← Nat.add_assoc]
          exact hrest
      · exact ⟨[], byte :: rest, by decide, rfl, .inr ⟨error, herror⟩⟩

/-- Every sequence of bytes is the encoding of a program, or it stops at an instruction that
cannot be read. -/
theorem encode_or_stopsAt (bytes : List UInt8) :
    (∃ program : Program, program.WellFormed ∧ program.encode = bytes) ∨
      ∃ (program : Program) (error : DecodeError), program.StopsAt bytes error := by
  obtain ⟨program, rest, hprogram, hbytes, rfl | ⟨error, hrest⟩⟩ := exists_encode_append 0 bytes
  · exact .inl ⟨program, hprogram, by rw [hbytes, List.append_nil]⟩
  · rw [Nat.zero_add] at hrest
    exact .inr ⟨program, error, hprogram, rest, hbytes, hrest⟩

/-- Bytes that are decoded are the encoding of a well-formed program. -/
theorem wellFormed_of_decode {bytes : List UInt8} {program : Program}
    (h : decode bytes = .ok program) : program.WellFormed ∧ program.encode = bytes := by
  rcases encode_or_stopsAt bytes with ⟨other, hother, rfl⟩ | ⟨other, error, hstops⟩
  · rw [hother.decode_encode] at h
    obtain rfl := Except.ok.inj h
    exact ⟨hother, rfl⟩
  · rw [hstops.decode_eq] at h
    cases h

/-- The codec is a bijection between the well-formed programs and the bytes that are decoded.
An encoded program is read again with its literals reduced, and so as it was if they are words;
and a program that is read was written in these bytes and in no others. -/
theorem decode_encode_inverse :
    (∀ program : Program, (∀ inst ∈ program, inst.Known) →
      decode program.encode = .ok (program.map Instruction.reduced)) ∧
    (∀ program : Program, program.WellFormed → decode program.encode = .ok program) ∧
    ∀ (bytes : List UInt8) (program : Program), decode bytes = .ok program →
      program.WellFormed ∧ program.encode = bytes := by
  refine ⟨?_, ?_, ?_⟩
  · intro program hknown
    exact decode_encode hknown
  · intro program hprogram
    exact hprogram.decode_encode
  · intro bytes program hdecode
    exact wellFormed_of_decode hdecode

/-- The bytes of a literal may look like opcodes, and a negative literal is read as a word. -/
theorem decode_encode_inverse_of_literals :
    ((∀ inst ∈ [.set 434041037028460038, .plain .halt, .set (-1)], Instruction.Known inst) ∧
      decode (encode [.set 434041037028460038, .plain .halt, .set (-1)]) =
        .ok [.set 434041037028460038, .plain .halt, .set 18446744073709551615]) ∧
    (WellFormed [.set 434041037028460038, .plain .halt] ∧
      decode (encode [.set 434041037028460038, .plain .halt]) =
        .ok [.set 434041037028460038, .plain .halt]) ∧
    decode [6, 6, 6, 6, 6, 6, 6, 6, 6, 1] = .ok [.set 434041037028460038, .plain .halt] ∧
      encode [.set 434041037028460038, .plain .halt] = [6, 6, 6, 6, 6, 6, 6, 6, 6, 1] := by
  obtain ⟨hreduced, hsame, hread⟩ := decode_encode_inverse
  have hknown : ∀ inst ∈ [.set 434041037028460038, .plain .halt, .set (-1)],
      Instruction.Known inst := by
    decide
  have hwell : WellFormed [.set 434041037028460038, .plain .halt] := by decide
  have hbytes : decode [6, 6, 6, 6, 6, 6, 6, 6, 6, 1] =
      .ok [.set 434041037028460038, .plain .halt] := by
    cbv
  exact ⟨⟨hknown, hreduced _ hknown⟩, ⟨hwell, hsame _ hwell⟩, hbytes, (hread _ _ hbytes).2⟩

/-- Every instruction that is read has a slice of its own within the bytes. -/
theorem decodeOne_slice {bytes : List UInt8} {before after : Program} {inst : Instruction}
    (h : decode bytes = .ok (before ++ inst :: after)) :
    before.encode.length + inst.encode.length ≤ bytes.length ∧
      Instruction.decodeOne ((bytes.drop before.encode.length).take inst.encode.length) =
        .ok inst := by
  obtain ⟨hprogram, rfl⟩ := wellFormed_of_decode h
  obtain ⟨hknown, hrange⟩ := hprogram inst (by simp)
  rw [encode_append, encode_cons, List.drop_left, List.take_left, hknown.decodeOne_encode,
    hrange.reduced_eq]
  refine ⟨?_, rfl⟩
  simp only [List.length_append]
  omega

/-- Decoding gives the program that the bytes encode, or an error. It reads within the bytes,
and it fails exactly if they stop at an instruction that cannot be read, with the error for
that instruction. There is one such instruction at most, and the errors that concern bytes
given to a single instruction never arise. -/
theorem decode_eq_error_iff_stopsAt (bytes : List UInt8) :
    ((∃ program, decode bytes = .ok program ∧ program.encode = bytes) ∨
      ∃ (program : Program) (error : DecodeError),
        decode bytes = .error error ∧ program.StopsAt bytes error) ∧
    (∀ (before after : Program) (inst : Instruction),
      decode bytes = .ok (before ++ inst :: after) →
      before.encode.length + inst.encode.length ≤ bytes.length ∧
        Instruction.decodeOne ((bytes.drop before.encode.length).take inst.encode.length) =
          .ok inst) ∧
    (∀ error, decode bytes = .error error ↔ ∃ program : Program, program.StopsAt bytes error) ∧
    (∀ (program other : Program) (error error' : DecodeError),
      program.StopsAt bytes error → other.StopsAt bytes error' → program = other) ∧
    ∀ error, decode bytes = .error error →
      error.kind ∉ [.noData, .missingLiteral, .inappropriateLiteral] := by
  have hfails (error : DecodeError) (herror : decode bytes = .error error) :
      ∃ program : Program, program.StopsAt bytes error := by
    rcases encode_or_stopsAt bytes with ⟨program, hprogram, rfl⟩ | ⟨program, other, hstops⟩
    · rw [hprogram.decode_encode] at herror
      cases herror
    · rw [hstops.decode_eq] at herror
      obtain rfl := Except.error.inj herror
      exact ⟨program, hstops⟩
  refine ⟨?_, fun before after inst h => decodeOne_slice h, fun error => ⟨hfails error, ?_⟩,
    ?_, fun error herror => ?_⟩
  · rcases encode_or_stopsAt bytes with ⟨program, hprogram, rfl⟩ | ⟨program, error, hstops⟩
    · exact .inl ⟨program, hprogram.decode_encode, rfl⟩
    · exact .inr ⟨program, error, hstops.decode_eq, hstops⟩
  · rintro ⟨program, hstops⟩
    exact hstops.decode_eq
  · intro program other error error' hstops hother
    have hsame := hstops.decode_eq.symm.trans hother.decode_eq
    obtain rfl := Except.error.inj hsame
    exact hstops.unique hother
  · obtain ⟨program, hstops⟩ := hfails error herror
    obtain ⟨rest, _, hrest⟩ := hstops.unreadable
    rcases hrest.kind_eq with hkind | hkind
    · rw [hkind]
      decide
    · rw [hkind]
      decide

/-- A literal that is cut off is reported at its opcode, behind an instruction of nine bytes. -/
theorem decode_eq_error_iff_stopsAt_of_cut :
    StopsAt [.set 7] [6, 0, 0, 0, 0, 0, 0, 0, 7, 6, 1] { kind := .incompleteLiteral, offset := 9 } ∧
      decode [6, 0, 0, 0, 0, 0, 0, 0, 7, 6, 1] =
        .error { kind := .incompleteLiteral, offset := 9 } := by
  have hstops : StopsAt [.set 7] [6, 0, 0, 0, 0, 0, 0, 0, 7, 6, 1]
      { kind := .incompleteLiteral, offset := 9 } :=
    ⟨by decide, [6, 1], by decide, .literal (by decide)⟩
  obtain ⟨_, _, hfails, _⟩ := decode_eq_error_iff_stopsAt [6, 0, 0, 0, 0, 0, 0, 0, 7, 6, 1]
  exact ⟨hstops, (hfails _).mpr ⟨_, hstops⟩⟩

end WordMachine.Program
