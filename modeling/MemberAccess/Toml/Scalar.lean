import MemberAccess.Number.Numeral
import MemberAccess.Toml.Text

/-!
# Numbers and dates of settings

The words that are values without quotes. Their content is not kept, but a document with a word that is
no value is refused.

* `isInteger`, `isFloat`, `isDateTime`: the words of each sort.
-/

namespace MemberAccess.Toml

open Number

/-- Digits of some base with single underscores between them. -/
def areDigits (isDigit : Char → Bool) : List Char → Bool
  | [] => false
  | [c] => isDigit c
  | c :: '_' :: rest => isDigit c && areDigits isDigit rest
  | c :: rest => isDigit c && areDigits isDigit rest

/-- Decimal digits that do not start with a needless zero. -/
def isWhole (s : List Char) : Bool :=
  areDigits Char.isDigit s && (s.head? ≠ some '0' || s.length = 1)

/-- A sign, if there is one, and the rest. -/
def signed : List Char → Bool × List Char
  | '-' :: rest => (true, rest)
  | '+' :: rest => (false, rest)
  | s => (false, s)

/-- Whole numbers of 64 bits; those in base 16, 8 and 2 have no sign. -/
def isInteger (s : List Char) : Bool :=
  let inBase (base : Nat) (digits : List Char) : Bool :=
    areDigits (fun c => (hexDigit? c).any (· < base)) digits && valueIn base digits < (1 <<< 63)
  match s with
  | '0' :: 'x' :: digits => inBase 16 digits
  | '0' :: 'o' :: digits => inBase 8 digits
  | '0' :: 'b' :: digits => inBase 2 digits
  | _ =>
    let (negative, digits) := signed s
    isWhole digits && valueIn 10 digits < (1 <<< 63) + (if negative then 1 else 0)

/-- Whether `digits · 10 ^ power` is so large that no finite binary64 number is nearest to it. -/
def isHuge (digits : Nat) (power : Int) : Bool :=
  let size : Int := (Nat.toDigits 10 digits).length + power
  digits ≠ 0 && (310 < size || (300 < size &&
    ((1 <<< 1024) - (1 <<< 970)) * Nat.pow 10 (-power).toNat ≤ digits * Nat.pow 10 power.toNat))

/-- The parts of a text before a character and, if it occurs, behind it. -/
def cut (isMark : Char → Bool) (s : List Char) : List Char × Option (List Char) :=
  (s.takeWhile (!isMark ·), (s.dropWhile (!isMark ·)).tail?)

/-- Numbers with a fraction or an exponent, and the words for what is infinite or no number. A positive
number may not be too large. -/
def isFloat (s : List Char) : Bool :=
  let (negative, size) := signed s
  if size = "inf".toList || size = "nan".toList then true
  else
    let (significand, exponent) := cut (fun c => c = 'e' || c = 'E') size
    let (whole, fraction) := cut (· = '.') significand
    let isExponent (e : List Char) : Bool := areDigits Char.isDigit (signed e).2
    let power : Int := match exponent.map signed with
      | some (down, e) => if down then -(valueIn 10 e : Int) else valueIn 10 e
      | none => 0
    let places := (fraction.getD []).filter (· ≠ '_')
    (fraction.isSome || exponent.isSome) && isWhole whole && fraction.all (areDigits Char.isDigit) &&
      exponent.all isExponent && (negative || !isHuge (valueIn 10 (whole ++ places)) (power - places.length))

/-- The value of two digits, if that is what they are. -/
def twoDigits? (a b : Char) : Option Nat :=
  if a.isDigit && b.isDigit then some (valueIn 10 [a, b]) else none

def daysIn (year month : Nat) : Nat :=
  if month = 2 then
    if year % 4 = 0 && (year % 100 ≠ 0 || year % 400 = 0) then 29 else 28
  else if [4, 6, 9, 11].contains month then 30
  else 31

/-- What follows a date `yyyy-mm-dd`. -/
def afterDate? : List Char → Option (List Char)
  | y1 :: y2 :: y3 :: y4 :: '-' :: m1 :: m2 :: '-' :: d1 :: d2 :: rest => do
    let century ← twoDigits? y1 y2
    let year ← twoDigits? y3 y4
    let month ← twoDigits? m1 m2
    let day ← twoDigits? d1 d2
    guard (1 ≤ month && month ≤ 12 && 1 ≤ day && day ≤ daysIn (100 * century + year) month)
    some rest
  | _ => none

/-- What follows a time `hh:mm:ss`, with or without a fraction; a minute may have one more second. -/
def afterTime? : List Char → Option (List Char)
  | h1 :: h2 :: ':' :: m1 :: m2 :: ':' :: s1 :: s2 :: rest => do
    guard ((← twoDigits? h1 h2) ≤ 23 && (← twoDigits? m1 m2) ≤ 59 && (← twoDigits? s1 s2) ≤ 60)
    match rest with
    | '.' :: digits =>
      guard ((digits.head?).any Char.isDigit)
      some (digits.dropWhile Char.isDigit)
    | _ => some rest
  | _ => none

/-- An offset from universal time: `Z`, or hours and minutes with a sign. -/
def isOffset : List Char → Bool
  | ['Z'] | ['z'] => true
  | [sign, h1, h2, ':', m1, m2] =>
    (sign = '+' || sign = '-') && (twoDigits? h1 h2).any (· ≤ 23) && (twoDigits? m1 m2).any (· ≤ 59)
  | _ => false

/-- Dates, times, and dates with times; only the last may have an offset. -/
def isDateTime (s : List Char) : Bool :=
  match afterDate? s with
  | some [] => true
  | some (delimiter :: rest) =>
    [' ', 'T', 't'].contains delimiter && (afterTime? rest).any fun rest => rest.isEmpty || isOffset rest
  | none => (afterTime? s).any List.isEmpty

end MemberAccess.Toml
