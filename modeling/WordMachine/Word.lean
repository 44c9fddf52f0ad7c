/-!
# Words

The machine computes on 64-bit unsigned words. Numbers are kept as unbounded
integers and compared with the word range only where the machine checks it, so
a number outside the range can be held, shown and refused. The arithmetic here
fails instead of wrapping around.
-/

namespace WordMachine

namespace Word

/-- The width of a word in bits. -/
def bits : Nat := 64

/-- The width of a word in bytes. -/
def width : Nat := 8

/-- The largest word. -/
def max : Int := 18446744073709551615

/-- The number of words, one more than the largest. -/
def modulus : Int := 18446744073709551616

/-- A sum fails above the largest word (`checkedAdd`). -/
def add? (a b : Int) : Option Int :=
  if max < a + b then none else some (a + b)

/-- A difference fails below zero (`checkedSub`). -/
def sub? (a b : Int) : Option Int :=
  if a < b then none else some (a - b)

/-- A product fails above the largest word (`checkedMul`). -/
def mul? (a b : Int) : Option Int :=
  if max < a * b then none else some (a * b)

/-- A quotient fails on division by zero and is otherwise cut toward zero (`checkedDiv`). -/
def div? (a b : Int) : Option Int :=
  if b = 0 then none else some (a.tdiv b)

/-- A remainder fails on division by zero and otherwise has the sign of `a` (`checkedMod`). -/
def mod? (a b : Int) : Option Int :=
  if b = 0 then none else some (a.tmod b)

/-- One where the numbers are equal and zero where they differ. -/
def equal (a b : Int) : Int :=
  if a = b then 1 else 0

/-- The bits that two words have in common. -/
def and (a b : Int) : Int :=
  (a.toNat &&& b.toNat : Nat)

/-- The bits that at least one of two words has. -/
def or (a b : Int) : Int :=
  (a.toNat ||| b.toNat : Nat)

/-- The bits that exactly one of two words has. -/
def xor (a b : Int) : Int :=
  (a.toNat ^^^ b.toNat : Nat)

/-- The low 64 bits of the complement, taken in infinite two's complement (`complement`). -/
def complement (a : Int) : Int :=
  (-1 - a) % modulus

end Word

/-- A number in the range of a word (`isWord`). -/
def IsWord (v : Int) : Prop :=
  0 ≤ v ∧ v ≤ Word.max

instance : DecidablePred IsWord := fun v =>
  inferInstanceAs (Decidable (0 ≤ v ∧ v ≤ Word.max))

end WordMachine
