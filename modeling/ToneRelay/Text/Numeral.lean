/-!
# Whole numbers in text

Decimal numerals: an optional sign and at least one ASCII digit, leading zeros allowed. A number
that is written without a sign in its type takes `+` and never `-`, not even before zero.
Main statement: `digits?_decimal`, a number is read back from its digits.
-/

namespace ToneRelay.Text

/-- The decimal digits of `n`. -/
def decimal (n : Nat) : List Char := Nat.toDigits 10 n

/-- The value of a non-empty list of digits. -/
def digits? (cs : List Char) : Option Nat :=
  if cs ≠ [] ∧ cs.all Char.isDigit then some (Nat.ofDigitChars 10 cs 0) else none

/-- A numeral of an unsigned type whose greatest value is `max`. -/
def natural? (max : Nat) (cs : List Char) : Option Nat :=
  let digits := match cs with
    | '+' :: rest => rest
    | _ => cs
  (digits? digits).bind fun n => if n ≤ max then some n else none

/-- A numeral of a signed type with the values `-(max + 1)` to `max`. -/
def integer? (max : Nat) (cs : List Char) : Option Int :=
  match cs with
  | '-' :: rest => (digits? rest).bind fun n => if n ≤ max + 1 then some (-(n : Int)) else none
  | _ => (natural? max cs).map Int.ofNat

/-- The greatest value of an unsigned type of eight bits. -/
abbrev max8 : Nat := 255

/-- The greatest value of an unsigned type of sixteen bits. -/
abbrev max16 : Nat := 65535

/-- The greatest value of an unsigned type of thirty-two bits. -/
abbrev max32 : Nat := 4294967295

/-- The greatest value of an unsigned type of sixty-four bits. -/
abbrev max64 : Nat := 18446744073709551615

/-- The greatest value of a signed type of sixty-four bits. -/
abbrev maxSigned64 : Nat := 9223372036854775807

/-! ## Reading back -/

theorem decimal_ne_nil (n : Nat) : decimal n ≠ [] := Nat.toDigits_ne_nil

theorem isDigit_of_mem_decimal {n : Nat} {c : Char} (h : c ∈ decimal n) : c.isDigit = true :=
  Nat.isDigit_of_mem_toDigits (by decide) (by decide) h

@[simp] theorem digits?_decimal (n : Nat) : digits? (decimal n) = some n := by
  have hall : (decimal n).all Char.isDigit = true :=
    List.all_eq_true.2 fun c hc => isDigit_of_mem_decimal hc
  rw [digits?, if_pos ⟨decimal_ne_nil n, hall⟩, decimal, Nat.ofDigitChars_ten_toDigits]

end ToneRelay.Text
