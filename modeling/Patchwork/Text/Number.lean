/-!
# Reading natural numbers

Decimal digits, read as a number or as a 32-bit word. A word may carry one plus sign. The numbers
of hunk headers (specification, section 6.1) are read as words.
-/

namespace Patchwork.Text

/-- The value of a row of decimal digits, after the digits already read. -/
def digitsValue? : (sofar : Nat) → List Char → Option Nat
  | sofar, [] => some sofar
  | sofar, c :: text =>
    if c.isDigit then digitsValue? (10 * sofar + (c.toNat - '0'.toNat)) text else none

/-- The number that a row of at least one decimal digit stands for. -/
def natural? : List Char → Option Nat
  | [] => none
  | text => digitsValue? 0 text

/-- A number as a 32-bit word, if it is small enough. -/
def wordOfNat? (n : Nat) : Option UInt32 :=
  if n < UInt32.size then some (.ofNat n) else none

/-- The 32-bit word that decimal digits stand for; one plus sign may stand before them. -/
def word? : List Char → Option UInt32
  | '+' :: text => (natural? text).bind wordOfNat?
  | text => (natural? text).bind wordOfNat?

/-- A word is a number that is small enough. -/
theorem wordOfNat?_eq_some_iff {n : Nat} {w : UInt32} : wordOfNat? n = some w ↔ n = w.toNat := by
  unfold wordOfNat?
  split
  · rename_i h
    simp only [Option.some.injEq]
    constructor
    · rintro rfl
      exact (UInt32.toNat_ofNat_of_lt h).symm
    · rintro rfl
      simp
  · rename_i h
    have := w.toNat_lt
    simp only [reduceCtorEq, false_iff]
    rintro rfl
    exact h this

end Patchwork.Text
