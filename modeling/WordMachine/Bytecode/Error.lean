import WordMachine.Count

/-!
# Decoding errors

What is wrong with a byte sequence, where, and with which byte.
-/

namespace WordMachine

/-- The reasons why bytes are not a program. -/
inductive DecodeErrorKind where
  | noData
  | invalidOpcode
  | missingLiteral
  | incompleteLiteral
  | inappropriateLiteral
  deriving DecidableEq, Repr

namespace DecodeErrorKind

/-- All kinds of decoding error. -/
def all : List DecodeErrorKind :=
  [noData, invalidOpcode, missingLiteral, incompleteLiteral, inappropriateLiteral]

/-- The label of a kind in reports. -/
def label : DecodeErrorKind → String
  | noData => "NO_DATA"
  | invalidOpcode => "INVALID_OPCODE"
  | missingLiteral => "MISSING_LITERAL"
  | incompleteLiteral => "INCOMPLETE_LITERAL"
  | inappropriateLiteral => "INAPPROPRIATE_LITERAL"

/-- The wording of a kind. -/
def text : DecodeErrorKind → String
  | noData => "no data to decode"
  | invalidOpcode => "unrecognized opcode"
  | missingLiteral => "SET opcode without a literal"
  | incompleteLiteral => "SET literal is shorter than 8 bytes"
  | inappropriateLiteral => "literal bytes given to an opcode that takes none"

end DecodeErrorKind

/-- Why decoding stopped, at which offset, and at which byte if one is to blame (`DecodeError`). -/
structure DecodeError where
  /-- The reason. -/
  kind : DecodeErrorKind
  /-- The offset of the instruction that could not be read. -/
  offset : Int := 0
  /-- The byte to blame. -/
  byte : Option Int := none
  deriving DecidableEq, Repr

namespace DecodeError

/-- A byte in hexadecimal, filled up with a zero to two characters. -/
def hex (byte : Int) : String :=
  let chars := (Count.hexText byte).toList
  String.ofList (List.replicate (2 - chars.length) '0' ++ chars)

/-- The wording of a decoding error: the reason, the byte and the offset. -/
def message (error : DecodeError) : String :=
  let byte := match error.byte with
    | none => ""
    | some byte => " 0x" ++ hex byte
  error.kind.text ++ byte ++ " at offset " ++ Count.text error.offset

/-- The same error at another offset (`at`). -/
def moveTo (error : DecodeError) (offset : Int) : DecodeError :=
  { error with offset }

end DecodeError

end WordMachine
