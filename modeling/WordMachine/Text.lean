/-!
# Text

The rules of text on which source lines, paths and log lines depend: which
characters are white space, how a text is cut at separators, how it is written in
upper case or in quotes, and which numbers are written by digits.
-/

namespace WordMachine.Text

/-! ## White space -/

/-- The ranges of code points that count as white space. -/
def blankRanges : List (Nat × Nat) :=
  [(0x0009, 0x000D), (0x0020, 0x0020), (0x00A0, 0x00A0), (0x1680, 0x1680), (0x2000, 0x200A),
    (0x2028, 0x2029), (0x202F, 0x202F), (0x205F, 0x205F), (0x3000, 0x3000), (0xFEFF, 0xFEFF)]

/-- Whether a character is white space. -/
def isBlank (c : Char) : Bool :=
  blankRanges.any fun range => range.1 ≤ c.toNat && c.toNat ≤ range.2

/-!
## Splitting

`split` cuts a text at every separating character, so there is always one piece
more than there are separators; `words` keeps the pieces that are not empty.
-/

/-- Puts a character in front of the first piece. -/
def extendFirst (c : Char) : List (List Char) → List (List Char)
  | [] => [[c]]
  | piece :: pieces => (c :: piece) :: pieces

/-- The pieces of a text between the characters that separate. -/
def split (separates : Char → Bool) (cs : List Char) : List (List Char) :=
  cs.foldr (fun c pieces => if separates c then [] :: pieces else extendFirst c pieces) [[]]

/-- The pieces of a text that are not empty. -/
def words (separates : Char → Bool) (cs : List Char) : List (List Char) :=
  (split separates cs).filter fun piece => !piece.isEmpty

/-!
## Upper case

Mnemonics are compared in upper case. Besides the small letters of ASCII a few
other characters have an upper case made of ASCII letters. A character whose
upper case holds anything else may stand for itself, since neither it nor its
upper case occurs in a mnemonic.
-/

/-- The characters outside ASCII whose upper case consists of ASCII letters. -/
def foreignUpperCase : List (Char × List Char) :=
  [('\u00df', ['S', 'S']), ('\u0131', ['I']), ('\u017f', ['S']), ('\ufb00', ['F', 'F']),
    ('\ufb01', ['F', 'I']), ('\ufb02', ['F', 'L']), ('\ufb03', ['F', 'F', 'I']),
    ('\ufb04', ['F', 'F', 'L']), ('\ufb05', ['S', 'T']), ('\ufb06', ['S', 'T'])]

/-- The upper case of a character, as far as it consists of ASCII letters. -/
def upperChar (c : Char) : List Char :=
  (foreignUpperCase.lookup c).getD [c.toUpper]

/-- The upper case of a text, as far as it consists of ASCII letters. -/
def upperCase (cs : List Char) : List Char :=
  cs.flatMap upperChar

/-!
## Quotes

In quotes, as in a JSON string, quotes, backslashes and control characters are
escaped, and all else stands for itself.
-/

/-- The characters with an escape of two characters, and the second of these. -/
def shortEscapes : List (Char × Char) :=
  [('"', '"'), ('\\', '\\'), ('\n', 'n'), ('\r', 'r'), ('\t', 't'), ('\x08', 'b'), ('\x0c', 'f')]

/-- A character inside a quoted text. -/
def escapeChar (c : Char) : List Char :=
  match shortEscapes.lookup c with
  | some letter => ['\\', letter]
  | none =>
    if c.toNat < 0x20 then
      ['\\', 'u', '0', '0', Nat.digitChar (c.toNat / 16), Nat.digitChar (c.toNat % 16)]
    else [c]

/-- A text in quotes. -/
def quotedText (text : String) : String :=
  "\"" ++ String.ofList (text.toList.flatMap escapeChar) ++ "\""

/-!
## Numerals

A literal is decimal, or hexadecimal after `0x`; leading zeros are allowed and do
not change the base.
-/

/-- The value of a digit in a base up to sixteen. -/
def digit? (base : Nat) (c : Char) : Option Nat :=
  let value? :=
    if '0' ≤ c ∧ c ≤ '9' then some (c.toNat - '0'.toNat)
    else if 'a' ≤ c ∧ c ≤ 'f' then some (c.toNat - 'a'.toNat + 10)
    else if 'A' ≤ c ∧ c ≤ 'F' then some (c.toNat - 'A'.toNat + 10)
    else none
  value?.filter (· < base)

/-- The number written by one digit at least. -/
def numeral? (base : Nat) : List Char → Option Nat
  | [] => none
  | digits => digits.foldlM (fun value c => (digit? base c).map (base * value + ·)) 0

/-- The number written by a decimal or hexadecimal literal. -/
def literal? : List Char → Option Nat
  | '0' :: 'x' :: digits => numeral? 16 digits
  | '0' :: 'X' :: digits => numeral? 16 digits
  | digits => numeral? 10 digits

end WordMachine.Text
