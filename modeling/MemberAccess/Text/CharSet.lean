import MemberAccess.Number.Numeral
import MemberAccess.Text.Split

/-!
# Sets of characters

A property of characters is a set of code points, kept as ranges in ascending order and written the
way data files of the standard write them: hexadecimal, `aa b2-b3 b5`.
-/

namespace MemberAccess.Text

/-- A set of characters, as inclusive ranges of code points. -/
structure CharSet where
  ranges : List (Nat × Nat)

namespace CharSet

/-- Reads a set from its ranges, between white space. -/
def ofText (s : String) : CharSet :=
  ⟨(parts Char.isWhitespace s.toList).map fun range =>
    match (parts (· = '-') range).map (Number.valueIn 16) with
    | [first, last] => (first, last)
    | [only] => (only, only)
    | _ => (1, 0)⟩

def contains (s : CharSet) (c : Char) : Bool :=
  s.ranges.any fun (first, last) => first ≤ c.toNat && c.toNat ≤ last

end CharSet

end MemberAccess.Text
