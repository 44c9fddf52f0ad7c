/-!
# Counts

Offsets, sizes and codes are counts. A count is held to 53 binary digits: it is
the nearest number that has no more of them. In decimal it is written with the
fewest digits that are rounded to it again, and in hexadecimal with all its
digits.
-/

namespace WordMachine.Count

/-- The number of binary digits to which a count is held. -/
def precision : Nat := 53

/-- The number of binary digits from which on a count is shown as infinite. -/
def infiniteDigits : Nat := 1025

/-- The number of binary digits of a size that the precision does not cover. -/
def surplus (size : Nat) : Nat :=
  size.log2 + 1 - precision

/-- The nearest size that the precision covers, its closing zeros apart. A size halfway
between two of them goes to the one whose last covered digit is even. -/
def round (size : Nat) : Nat :=
  let unit := Nat.pow 2 (surplus size)
  let below := size / unit
  let rest := size % unit
  if unit < 2 * rest ∨ (unit = 2 * rest ∧ below % 2 = 1) then (below + 1) * unit
  else below * unit

/-- The count that stands for an integer. -/
def ofInt (value : Int) : Int :=
  if value < 0 then -(round value.natAbs : Int) else round value.natAbs

/-- Of the two multiples of a unit around a rounded size, the nearer one that is rounded to
that size. They are never equally near, since a rounded size has too many factors of two. -/
def representative? (size unit : Nat) : Option Nat :=
  let below := size / unit * unit
  let above := below + unit
  let nearerFirst := if size - below ≤ above - size then [below, above] else [above, below]
  nearerFirst.find? fun multiple => round multiple = size

/-- The number with the fewest decimal digits that is rounded to a rounded size, if it has
at most so many closing zeros. -/
def shortest (size : Nat) : Nat → Nat
  | 0 => size
  | zeros + 1 => (representative? size (Nat.pow 10 (zeros + 1))).getD (shortest size zeros)

/-- A number as its first digit, the others up to the closing zeros, and a power of ten. -/
def scientificText (digits : List Char) : String :=
  let others := (digits.tail.reverse.dropWhile (· = '0')).reverse
  let point := if others.isEmpty then [] else ['.']
  String.ofList (digits.take 1 ++ point ++ others) ++ "e+" ++ toString (digits.length - 1)

/-- Whether a count is shown as infinite. -/
def isInfinite (count : Int) : Bool :=
  infiniteDigits ≤ (round count.natAbs).log2 + 1

/-- The sign of a count in front of its size. -/
def signed (count : Int) (size : String) : String :=
  if count < 0 then "-" ++ size else size

/-- The decimal text of a count. Powers of ten appear from `10 ^ 21` on. -/
def text (count : Int) : String :=
  signed count <|
    if isInfinite count then "Infinity"
    else
      let size := round count.natAbs
      let shown := shortest size (toString size).length
      if shown < Nat.pow 10 21 then toString shown else scientificText (Nat.toDigits 10 shown)

/-- The hexadecimal text of a count. -/
def hexText (count : Int) : String :=
  signed count <|
    if isInfinite count then "Infinity"
    else String.ofList (Nat.toDigits 16 (round count.natAbs))

end WordMachine.Count
