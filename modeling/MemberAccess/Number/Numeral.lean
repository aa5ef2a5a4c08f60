/-!
# Numerals

* `valueIn`: the value of digits in some base.
* `readInt32`: the whole number of a decimal numeral with an optional sign, if it fits.
-/

namespace MemberAccess.Number

/-- The value of a hexadecimal digit. -/
def hexDigit? (c : Char) : Option Nat :=
  if c.isDigit then some (c.toNat - '0'.toNat)
  else if 'a' ≤ c ∧ c ≤ 'f' then some (c.toNat - 'a'.toNat + 10)
  else if 'A' ≤ c ∧ c ≤ 'F' then some (c.toNat - 'A'.toNat + 10)
  else none

/-- The value of digits in some base; other characters are left out. -/
def valueIn (base : Nat) (s : List Char) : Nat :=
  (s.filterMap hexDigit?).foldl (fun n d => base * n + d) 0

/-- The value of a numeral: digits after an optional sign. -/
def readInt (s : List Char) : Option Int :=
  let (negative, digits) := match s with
    | '-' :: rest => (true, rest)
    | '+' :: rest => (false, rest)
    | _ => (false, s)
  if digits.isEmpty || !digits.all Char.isDigit then none
  else some (if negative then -(valueIn 10 digits : Int) else valueIn 10 digits)

def readInt32 (s : String) : Option Int32 :=
  match readInt s.toList with
  | some n => if Int32.minValue.toInt ≤ n ∧ n ≤ Int32.maxValue.toInt then some (.ofInt n) else none
  | none => none

end MemberAccess.Number
