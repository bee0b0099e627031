import Mathlib
/-!
# Decimal numerals

A fixed-width signed integer is read from a sign, which may be left out, and
digits, of which there is one at least. What does not fit the width is not
read.
-/

namespace FileSync

namespace Decimal

/-- Whether the numeral is negative, and its digits. -/
def sign : List Char → Bool × List Char
  | '-' :: digits => (true, digits)
  | '+' :: digits => (false, digits)
  | digits => (false, digits)

/-- The integer is one of that many bits. -/
def Fits (bits : ℕ) (n : ℤ) : Prop := -2 ^ (bits - 1) ≤ n ∧ n < 2 ^ (bits - 1)

instance (bits : ℕ) (n : ℤ) : Decidable (Fits bits n) := inferInstanceAs (Decidable (_ ∧ _))

def parse (bits : ℕ) (s : String) : Option ℤ :=
  let (negative, digits) := sign s.toList
  if digits.isEmpty || !digits.all Char.isDigit then none
  else
    let n : ℤ := Nat.ofDigitChars 10 digits 0
    let n := if negative then -n else n
    if Fits bits n then some n else none

variable {bits : ℕ} {n : ℤ} {digits : List Char}

theorem isDigit_toDigits (m : ℕ) : ∀ c ∈ Nat.toDigits 10 m, c.isDigit = true := fun _ hc =>
  Nat.isDigit_of_mem_toDigits (by decide) (by decide) hc

/-- Digits have no sign in front. -/
theorem sign_of_digits (h : ∀ c ∈ digits, c.isDigit = true) : sign digits = (false, digits) := by
  unfold sign
  split
  · exact absurd (h '-' List.mem_cons_self) (by decide)
  · exact absurd (h '+' List.mem_cons_self) (by decide)
  · rfl

theorem parse_of_sign {s : String} {negative : Bool} {m : ℕ}
    (hsign : sign s.toList = (negative, Nat.toDigits 10 m))
    (hn : (if negative then -(m : ℤ) else m) = n) (hfits : Fits bits n) :
    parse bits s = some n := by
  have hsome : (Nat.toDigits 10 m).isEmpty = false := by
    rw [List.isEmpty_eq_false_iff]
    exact Nat.toDigits_ne_nil
  have hall : (Nat.toDigits 10 m).all Char.isDigit = true :=
    List.all_eq_true.2 (isDigit_toDigits m)
  simp only [parse, hsign, hsome, hall, Nat.ofDigitChars_ten_toDigits, hn]
  rw [if_neg (by decide), if_pos hfits]

/-- **What is printed is read.** -/
theorem parse_toString (h : Fits bits n) : parse bits (toString n) = some n := by
  rw [Int.toString_eq_repr, Int.repr_eq_if]
  split
  · rename_i hpos
    have hsign : sign n.toNat.repr.toList = (false, Nat.toDigits 10 n.toNat) := by
      rw [Nat.toList_repr]
      exact sign_of_digits (isDigit_toDigits _)
    have hn : (n.toNat : ℤ) = n := by omega
    exact parse_of_sign hsign hn h
  · rename_i hneg
    have hsign : sign ("-" ++ (-n).toNat.repr).toList = (true, Nat.toDigits 10 (-n).toNat) := by
      rw [String.toList_append, Nat.toList_repr]
      rfl
    have hn : -((-n).toNat : ℤ) = n := by omega
    exact parse_of_sign hsign hn h

end Decimal

end FileSync
