/-!
# Reading UTF-8

Bytes are read as UTF-8 text without ever failing: each maximal part of an
ill-formed sequence gives one replacement character. The reader takes one byte at
a time and keeps what it needs of an unfinished sequence.
-/

namespace WordMachine.Text.Utf8

/-- The character that stands for ill-formed bytes. -/
def replacement : Char := '\ufffd'

/-- A sequence of which some bytes are still missing. -/
structure Pending where
  /-- The bits read so far. -/
  bits : Nat
  /-- The number of missing bytes, less one. -/
  missing : Nat
  /-- The least byte that may follow. -/
  low : UInt8 := 0x80
  /-- The greatest byte that may follow. -/
  high : UInt8 := 0xBF

/-- The text read so far, in reverse, and the unfinished sequence at its end. -/
structure Reader where
  /-- The characters read, the last first. -/
  chars : List Char := []
  /-- The unfinished sequence. -/
  pending : Option Pending := none

namespace Reader

/-- Adds a character and leaves no sequence open. -/
def emit (reader : Reader) (c : Char) : Reader :=
  { chars := c :: reader.chars }

/-- Leaves a sequence open. -/
def await (reader : Reader) (pending : Pending) : Reader :=
  { reader with pending := some pending }

/-- Takes the first byte of a character. -/
def start (reader : Reader) (byte : UInt8) : Reader :=
  let value := byte.toNat
  if byte < 0x80 then reader.emit (Char.ofNat value)
  else if byte < 0xC2 then reader.emit replacement
  else if byte < 0xE0 then reader.await { bits := value - 0xC0, missing := 0 }
  else if byte = 0xE0 then reader.await { bits := 0, missing := 1, low := 0xA0 }
  else if byte = 0xED then reader.await { bits := 0xD, missing := 1, high := 0x9F }
  else if byte < 0xF0 then reader.await { bits := value - 0xE0, missing := 1 }
  else if byte = 0xF0 then reader.await { bits := 0, missing := 2, low := 0x90 }
  else if byte < 0xF4 then reader.await { bits := value - 0xF0, missing := 2 }
  else if byte = 0xF4 then reader.await { bits := 4, missing := 2, high := 0x8F }
  else reader.emit replacement

/-- Takes one byte. A byte that cannot continue the open sequence ends it and starts anew. -/
def feed (reader : Reader) (byte : UInt8) : Reader :=
  match reader.pending with
  | none => reader.start byte
  | some pending =>
    if pending.low ≤ byte ∧ byte ≤ pending.high then
      let bits := 64 * pending.bits + (byte.toNat - 0x80)
      match pending.missing with
      | 0 => reader.emit (Char.ofNat bits)
      | missing + 1 => reader.await { bits, missing }
    else (reader.emit replacement).start byte

/-- The text read, with a replacement for a sequence that is still open. -/
def finish (reader : Reader) : List Char :=
  match reader.pending with
  | none => reader.chars.reverse
  | some _ => (reader.emit replacement).chars.reverse

end Reader

/-- The text of the bytes. -/
def decode (bytes : List UInt8) : String :=
  String.ofList (bytes.foldl Reader.feed {}).finish

end WordMachine.Text.Utf8
