import MemberAccess.Text.CharSet

/-!
# White space

The characters of the Unicode property White_Space.
-/

namespace MemberAccess.Text

def blanks : CharSet := .ofText "9-d 20 85 a0 1680 2000-200a 2028-2029 202f 205f 3000"

def isBlank (c : Char) : Bool := blanks.contains c

end MemberAccess.Text
