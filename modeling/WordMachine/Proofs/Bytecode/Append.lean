import WordMachine.Proofs.Bytecode.Program

/-!
# Bytes behind other bytes

Bytes that are a program have no bearing on what stands behind them: the rest is read as it
would be alone, and all that changes is where an error is found. An opcode that is not known
stays an error whatever follows it. A literal that is cut off may be completed by what
follows; then the reading goes on behind it, and as long as it is not complete it stays the
error that it was.
-/

namespace WordMachine

/-- The error in bytes that stand a number of bytes further on. -/
def DecodeError.moveOn (error : DecodeError) (count : Nat) : DecodeError :=
  error.moveTo (error.offset + count)

namespace Unreadable

variable {offset : Nat} {bytes : List UInt8} {error : DecodeError}

/-- Bytes that cannot be read cannot be read further on either. -/
theorem moveOn (h : Unreadable offset bytes error) (count : Nat) :
    Unreadable (count + offset) bytes (error.moveOn count) := by
  have hoffset : ((count + offset : Nat) : Int) = (offset : Int) + count := by omega
  cases h with
  | opcode hbyte =>
    rw [DecodeError.moveOn, DecodeError.moveTo, ← hoffset]
    exact .opcode hbyte
  | literal hshort =>
    rw [DecodeError.moveOn, DecodeError.moveTo, ← hoffset]
    exact .literal hshort

/-- An opcode that is not known is not made known by what follows it. -/
theorem append_of_invalidOpcode (h : Unreadable offset bytes error)
    (hkind : error.kind = .invalidOpcode) (more : List UInt8) :
    Unreadable offset (bytes ++ more) error := by
  cases h with
  | opcode hbyte => exact .opcode hbyte
  | literal hshort => cases hkind

/-- A literal is cut off exactly as long as there are fewer bytes than it takes. -/
theorem append_iff_of_incompleteLiteral (h : Unreadable offset bytes error)
    (hkind : error.kind = .incompleteLiteral) (more : List UInt8) :
    Unreadable offset (bytes ++ more) error ↔ (bytes ++ more).length < literalLength := by
  cases h with
  | opcode hbyte => cases hkind
  | literal hshort =>
    constructor
    · intro hcut
      cases hcut with
      | literal hstill => exact hstill
    · intro hstill
      exact .literal hstill

/-- Only one error is made of a literal that is cut off at a given place. -/
theorem eq_of_incompleteLiteral {bytes' : List UInt8} {error' : DecodeError}
    (h : Unreadable offset bytes error) (h' : Unreadable offset bytes' error')
    (hkind : error.kind = .incompleteLiteral) (hkind' : error'.kind = .incompleteLiteral) :
    error' = error := by
  cases h with
  | opcode hbyte => cases hkind
  | literal hshort =>
    cases h' with
    | opcode hbyte => cases hkind'
    | literal hshort' => rfl

end Unreadable

namespace Program

variable {program other : Program} {bytes rest : List UInt8} {error : DecodeError}

/-- Two programs that bytes can hold are such a program in a row. -/
theorem WellFormed.append (hprogram : program.WellFormed) (hother : other.WellFormed) :
    WellFormed (program ++ other) := by
  intro inst hinst
  rcases List.mem_append.mp hinst with hinst | hinst
  · exact hprogram inst hinst
  · exact hother inst hinst

/-- Bytes that are not decoded stop at an instruction that cannot be read. -/
theorem exists_stopsAt_of_decode (h : decode bytes = .error error) :
    ∃ program : Program, program.StopsAt bytes error := by
  rcases encode_or_stopsAt bytes with ⟨program, hprogram, rfl⟩ | ⟨program, error', hstops⟩
  · rw [hprogram.decode_encode] at h
    cases h
  · rw [hstops.decode_eq] at h
    obtain rfl := Except.error.inj h
    exact ⟨program, hstops⟩

/-- The place of an error is the length of what was read before it. -/
theorem StopsAt.offset_eq (h : program.StopsAt bytes error) :
    error.offset = program.encode.length := by
  obtain ⟨_, _, hrest⟩ := h.unreadable
  exact hrest.offset_eq

/-- Behind the bytes of a program the reading stops where it would stop without them. -/
theorem StopsAt.encode_append (hprogram : program.WellFormed) (h : other.StopsAt bytes error) :
    StopsAt (program ++ other) (program.encode ++ bytes) (error.moveOn program.encode.length) where
  wellFormed := hprogram.append h.wellFormed
  unreadable := by
    obtain ⟨rest, rfl, hrest⟩ := h.unreadable
    refine ⟨rest, ?_, ?_⟩
    · rw [Program.encode_append, List.append_assoc]
    · rw [Program.encode_append, List.length_append]
      exact hrest.moveOn program.encode.length

/-- What stands behind the bytes of a program is read as it is alone. The program comes first, and
an error is found further on. -/
theorem WellFormed.decode_encode_append (hprogram : program.WellFormed) (rest : List UInt8) :
    decode (program.encode ++ rest) =
      ((decode rest).map (program ++ ·)).mapError (·.moveOn program.encode.length) := by
  rcases encode_or_stopsAt rest with ⟨other, hother, rfl⟩ | ⟨other, error, hstops⟩
  · rw [← encode_append, (hprogram.append hother).decode_encode, hother.decode_encode]
    rfl
  · rw [(hstops.encode_append hprogram).decode_eq, hstops.decode_eq]
    rfl

/-- No error is found within the bytes of a program. -/
theorem WellFormed.length_le_offset (hprogram : program.WellFormed)
    (h : decode (program.encode ++ rest) = .error error) :
    (program.encode.length : Int) ≤ error.offset := by
  rw [hprogram.decode_encode_append] at h
  cases hrest : decode rest with
  | ok other =>
    rw [hrest] at h
    cases h
  | error found =>
    obtain ⟨other, hstops⟩ := exists_stopsAt_of_decode hrest
    have hplace := hstops.offset_eq
    rw [hrest] at h
    obtain rfl : found.moveOn program.encode.length = error := Except.error.inj h
    simp only [DecodeError.moveOn, DecodeError.moveTo]
    omega

/-- An opcode that is not known ends the reading whatever follows it. -/
theorem StopsAt.append_of_invalidOpcode (h : program.StopsAt bytes error)
    (hkind : error.kind = .invalidOpcode) (more : List UInt8) :
    program.StopsAt (bytes ++ more) error where
  wellFormed := h.wellFormed
  unreadable := by
    obtain ⟨rest, rfl, hrest⟩ := h.unreadable
    exact ⟨rest ++ more, List.append_assoc .., hrest.append_of_invalidOpcode hkind more⟩

/-- A literal that is cut off stays cut off exactly as long as all bytes together end before it
does. -/
theorem StopsAt.cut_append_iff (h : program.StopsAt bytes error)
    (hkind : error.kind = .incompleteLiteral) (more : List UInt8) :
    (∃ error', decode (bytes ++ more) = .error error' ∧ error'.kind = .incompleteLiteral ∧
        error'.offset = error.offset) ↔
      (bytes.length + more.length : Int) < error.offset + literalLength := by
  obtain ⟨rest, rfl, hrest⟩ := h.unreadable
  have hplace : error.offset = program.encode.length := hrest.offset_eq
  -- The bytes before the literal count on both sides.
  have hlength : ((program.encode ++ rest).length + more.length : Int) <
      error.offset + literalLength ↔ (rest ++ more).length < literalLength := by
    simp only [List.length_append, hplace]
    omega
  rw [hlength, ← hrest.append_iff_of_incompleteLiteral hkind more]
  constructor
  · rintro ⟨error', hdecode, hkind', hplace'⟩
    obtain ⟨other, hother⟩ := exists_stopsAt_of_decode hdecode
    obtain ⟨rest', hbytes, hrest'⟩ := hother.unreadable
    -- What is read before the two errors takes up the same bytes, and so does what follows.
    have hsame : program.encode.length = other.encode.length := by
      have hstops' := hrest'.offset_eq
      omega
    rw [List.append_assoc] at hbytes
    obtain ⟨_, rfl⟩ := List.append_inj hbytes hsame
    rw [← hsame] at hrest'
    rwa [← hrest.eq_of_incompleteLiteral hrest' hkind hkind']
  · intro hcut
    have hstops : program.StopsAt (program.encode ++ rest ++ more) error :=
      ⟨h.wellFormed, rest ++ more, List.append_assoc .., hcut⟩
    exact ⟨error, hstops.decode_eq, hkind, rfl⟩

/-- Decoding goes along with appending, and errors stay where they are found. Behind bytes that are
decoded, other bytes are decoded as they are alone: the programs follow each other, or the error of
the others is found further on by the length of the first. An opcode that is not known is the same
error whatever follows. Behind a literal that is cut off no error is found before that literal, and
the same one is found exactly as long as all bytes together do not complete it. -/
theorem decode_append (bytes more : List UInt8) :
    (∀ program : Program, decode bytes = .ok program →
      (∀ other : Program, decode more = .ok other →
        decode (bytes ++ more) = .ok (program ++ other)) ∧
      ∀ error, decode more = .error error →
        decode (bytes ++ more) =
          .error { error with offset := error.offset + bytes.length }) ∧
    (∀ error, decode bytes = .error error → error.kind = .invalidOpcode →
      decode (bytes ++ more) = .error error) ∧
    ∀ error, decode bytes = .error error → error.kind = .incompleteLiteral →
      (∀ error', decode (bytes ++ more) = .error error' → error.offset ≤ error'.offset) ∧
      ((∃ error', decode (bytes ++ more) = .error error' ∧ error'.kind = .incompleteLiteral ∧
          error'.offset = error.offset) ↔
        (bytes.length + more.length : Int) < error.offset + 9) := by
  refine ⟨fun program hdecode => ?_, fun error herror hkind => ?_, fun error herror hkind => ?_⟩
  · obtain ⟨hprogram, rfl⟩ := wellFormed_of_decode hdecode
    rw [hprogram.decode_encode_append]
    constructor
    · intro other hother
      rw [hother]
      rfl
    · intro error herror
      rw [herror]
      rfl
  · obtain ⟨program, hstops⟩ := exists_stopsAt_of_decode herror
    exact (hstops.append_of_invalidOpcode hkind more).decode_eq
  · obtain ⟨program, hstops⟩ := exists_stopsAt_of_decode herror
    refine ⟨fun error' herror' => ?_, hstops.cut_append_iff hkind more⟩
    have hplace := hstops.offset_eq
    obtain ⟨rest, rfl, _⟩ := hstops.unreadable
    rw [List.append_assoc] at herror'
    rw [hplace]
    exact hstops.wellFormed.length_le_offset herror'

/-- Six bytes complete a literal that lacks six, and the next opcode is then to blame; five leave
the literal cut off. The same opcode is found further on behind a program, and nothing behind it
makes up for it. -/
theorem decode_append_of_cut :
    (decode [1, 6, 0, 0] = .error { kind := .incompleteLiteral, offset := 1 } ∧
      (∃ error, decode ([1, 6, 0, 0] ++ [0, 0, 0, 0, 0]) = .error error ∧
        error.kind = .incompleteLiteral ∧ error.offset = 1) ∧
      ¬ ∃ error, decode ([1, 6, 0, 0] ++ [0, 0, 0, 0, 0, 7, 99]) = .error error ∧
        error.kind = .incompleteLiteral ∧ error.offset = 1) ∧
    (decode [1, 4] = .ok [.plain .halt, .plain .push] ∧
      decode [0, 99] = .error { kind := .invalidOpcode, offset := 1, byte := some 99 } ∧
      decode ([1, 4] ++ [0, 99]) =
        .error { kind := .invalidOpcode, offset := 3, byte := some 99 }) ∧
    decode ([0, 99] ++ [6]) = .error { kind := .invalidOpcode, offset := 1, byte := some 99 } := by
  have hcut : decode [1, 6, 0, 0] = .error { kind := .incompleteLiteral, offset := 1 } := by cbv
  have hread : decode [1, 4] = .ok [.plain .halt, .plain .push] := by cbv
  have hunknown : decode [0, 99] =
      .error { kind := .invalidOpcode, offset := 1, byte := some 99 } := by
    cbv
  obtain ⟨_, hfive⟩ := (decode_append [1, 6, 0, 0] [0, 0, 0, 0, 0]).2.2 _ hcut rfl
  obtain ⟨_, hsix⟩ := (decode_append [1, 6, 0, 0] [0, 0, 0, 0, 0, 7, 99]).2.2 _ hcut rfl
  refine ⟨⟨hcut, hfive.mpr (by decide), fun hstill => ?_⟩, ⟨hread, hunknown, ?_⟩, ?_⟩
  · exact absurd (hsix.mp hstill) (by decide)
  · exact ((decode_append [1, 4] [0, 99]).1 _ hread).2 _ hunknown
  · exact (decode_append [0, 99] [6]).2.1 _ hunknown rfl

end Program

end WordMachine
