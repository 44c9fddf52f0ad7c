import WordMachine.Word

/-!
# Words as bytes

A word is stored in eight bytes, the most significant first. Writing splits off the
lowest byte of a number eight times and drops what is left, so that it takes any
number, a negative one too, modulo `2 ^ 64`. Reading shifts in one byte after another
and fails at the first that is not there.
-/

namespace WordMachine.Word

/-- The lowest bytes of a number in infinite two's complement, the most significant first. -/
def lowBytes : (length : Nat) → (value : Int) → List UInt8
  | 0, _ => []
  | length + 1, value => lowBytes length (value >>> (8 : Nat)) ++ [UInt8.ofInt value]

/-- The number with one more byte below those that it has. -/
def shiftIn (value : Nat) (byte : UInt8) : Nat :=
  value <<< 8 ||| byte.toNat

/-- The number written by base-256 digits, the most significant first. -/
def ofDigits (bytes : List UInt8) : Nat :=
  bytes.foldl shiftIn 0

/-- The byte with an index, if there is one. -/
def byteAt? (bytes : List UInt8) (index : Int) : Option UInt8 :=
  if index < 0 then none else bytes[index.toNat]?

/-- The number in so many bytes from `offset` on, if all of them are there. -/
def readAt? (bytes : List UInt8) (offset : Int) : (length : Nat) → Option Nat
  | 0 => some 0
  | length + 1 => do
    let value ← readAt? bytes offset length
    let byte ← byteAt? bytes (offset + length)
    return shiftIn value byte

/-- The eight bytes of a number taken modulo `2 ^ 64` (`wordToBytes`). -/
def toBytes (value : Int) : List UInt8 :=
  lowBytes width value

/-- The word in the first eight bytes. -/
def ofBytes (bytes : List UInt8) : Int :=
  ofDigits (bytes.take width)

/-- The word in the eight bytes from `offset` on, if all of them are there (`wordFromBytes`). -/
def ofBytesAt? (bytes : List UInt8) (offset : Int) : Option Int :=
  (readAt? bytes offset width).map Int.ofNat

end WordMachine.Word
