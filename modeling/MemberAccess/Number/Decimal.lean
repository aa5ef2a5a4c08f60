import MemberAccess.Number.Binary

/-!
# Shortest decimal texts

A finite number is written with the fewest decimal digits that still round to it, the nearest such
decimal when there are several, and without an exponent.

* `Span`: the decimals that round to a number, as a closed or open interval around it.
* `Span.shortest`: the coarsest decimal grid with a point in the interval, and that point.
* `Binary32.text`, `Binary64.text`: the written forms.
-/

namespace MemberAccess.Number

/-- The numbers between `low / unit` and `high / unit`, around `mid / unit`; its ends belong to it
when it is closed. -/
structure Span where
  low : Nat
  mid : Nat
  high : Nat
  unit : Nat
  closed : Bool

namespace Span

/-- Multiplies all of a span by a power of ten. -/
def scaled (s : Span) (power : Int) : Span :=
  if 0 ≤ power then
    let f := Nat.pow 10 power.toNat
    { s with low := s.low * f, mid := s.mid * f, high := s.high * f }
  else { s with unit := s.unit * Nat.pow 10 (-power).toNat }

/-- Whether a whole number lies in the span. -/
def holds (s : Span) (k : Nat) : Bool :=
  if s.closed then s.low ≤ k * s.unit && k * s.unit ≤ s.high
  else s.low < k * s.unit && k * s.unit < s.high

/-- The whole number in the span that is nearest to its middle, the larger one on a tie. -/
def nearest? (s : Span) : Option Nat :=
  let below := s.mid / s.unit
  let up := s.unit ≤ 2 * (s.mid % s.unit)
  match s.holds below, s.holds (below + 1) with
  | true, true => some (if up then below + 1 else below)
  | true, false => some below
  | false, true => some (below + 1)
  | false, false => none

/-- A power of ten above the whole span. -/
def ceiling (s : Span) : Int :=
  (Nat.log2 s.high + 1 - Nat.log2 s.unit : Int) * 30103 / 100000 + 2

/-- The first grid from above, among so many, with a point in the span: the point and the grid's
power of ten. -/
def shortest (s : Span) (grids : Nat) : Option (Nat × Int) :=
  (List.range grids).findSome? fun (i : Nat) =>
    let power := s.ceiling - i
    (s.scaled (-power)).nearest?.map (·, power)

end Span

/-- The decimals that round to `m · 2 ^ q`: half a step to each side, and a quarter step below the
least significand of a binade. The ends round to an even significand. -/
def Layout.span (l : Layout) (m : Nat) (q : Int) : Span :=
  let (low, mid, high, p) :=
    if m = 1 <<< l.fraction then (4 * m - 1, 4 * m, 4 * m + 2, q - 2)
    else (2 * m - 1, 2 * m, 2 * m + 1, q - 1)
  let f := 1 <<< p.toNat
  ⟨low * f, mid * f, high * f, 1 <<< (-p).toNat, m % 2 == 0⟩

/-- `k · 10 ^ power` in positional notation. -/
def positional (k : Nat) (power : Int) : String :=
  let digits := Nat.toDigits 10 k
  if 0 ≤ power then String.ofList (digits ++ List.replicate power.toNat '0')
  else
    let places := (-power).toNat
    let padded := List.replicate (places + 1 - digits.length) '0' ++ digits
    let whole := padded.length - places
    String.ofList (padded.take whole ++ '.' :: padded.drop whole)

/-- The written form of what a word stands for. -/
def Layout.text (l : Layout) : Decoded → String
  | .nan => "NaN"
  | .infinite negative => if negative then "-inf" else "inf"
  | .finite negative m q =>
    let size :=
      if m = 0 then "0"
      else match (l.span m q).shortest (l.fraction + 4) with
        | some (k, power) => positional k power
        | none => ""
    if negative then "-" ++ size else size

def Binary32.text (x : Binary32) : String := Layout.binary32.text x.decode

def Binary64.text (x : Binary64) : String := Layout.binary64.text x.decode

end MemberAccess.Number
