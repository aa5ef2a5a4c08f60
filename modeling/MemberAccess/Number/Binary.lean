/-!
# Binary floating point, by its bits

Numbers of the interchange formats binary32 and binary64 are kept as their words, so equality is
equality of bits and every operation is exact arithmetic on integers.

* `Layout.decode`: what a word stands for, `± m · 2 ^ q` when it is finite.
* `Layout.encode`: the nearest word of a format, a half going to the even neighbour.
* `Binary64.compare?`, `Binary64.truncate`, `Binary64.ofInt`, `Binary32.widen`: the operations of values.
-/

namespace MemberAccess.Number

/-- An interchange format: so many stored significand bits below so many exponent bits. -/
structure Layout where
  fraction : Nat
  exponent : Nat
deriving DecidableEq

namespace Layout

def binary32 : Layout := ⟨23, 8⟩

def binary64 : Layout := ⟨52, 11⟩

/-- The power of two that the last bit of a subnormal number stands for. -/
def least (l : Layout) : Int := 2 - (1 <<< (l.exponent - 1) : Nat) - l.fraction

/-- The exponent field of the numbers that are not finite. -/
def top (l : Layout) : Nat := (1 <<< l.exponent) - 1

end Layout

/-- What a word stands for. A finite one is `significand · 2 ^ power` with a sign. -/
inductive Decoded where
  | nan
  | infinite (negative : Bool)
  | finite (negative : Bool) (significand : Nat) (power : Int)
deriving DecidableEq

namespace Layout

def decode (l : Layout) (bits : Nat) : Decoded :=
  let fraction := bits % (1 <<< l.fraction)
  let exponent := (bits >>> l.fraction) % (1 <<< l.exponent)
  let negative := (bits >>> (l.fraction + l.exponent)) % 2 == 1
  if exponent = l.top then
    if fraction = 0 then .infinite negative else .nan
  else if exponent = 0 then .finite negative fraction l.least
  else .finite negative ((1 <<< l.fraction) + fraction) (l.least + (exponent - 1))

/-- The word of a sign alone. -/
def signWord (l : Layout) (negative : Bool) : Nat :=
  if negative then 1 <<< (l.fraction + l.exponent) else 0

def infinity (l : Layout) (negative : Bool) : Nat :=
  l.signWord negative + (l.top <<< l.fraction)

/-- `m / d` to the nearest whole number, a half to the even one. -/
def roundHalfEven (m d : Nat) : Nat :=
  let low := m / d
  let twice := 2 * (m % d)
  if twice < d then low else if d < twice then low + 1 else low + low % 2

/-- The word nearest to `± m · 2 ^ q`. The last place kept is that of the leading bit less the stored
bits, and never below that of a subnormal; a carry out of the significand lands in the exponent. -/
def encode (l : Layout) (negative : Bool) (m : Nat) (q : Int) : Nat :=
  if m = 0 then l.signWord negative
  else
    let place := max (q + Nat.log2 m - l.fraction) l.least
    let kept := if place ≤ q then m <<< (q - place).toNat else roundHalfEven m (1 <<< (place - q).toNat)
    let word := ((place - l.least).toNat <<< l.fraction) + kept
    if l.top <<< l.fraction ≤ word then l.infinity negative else l.signWord negative + word

end Layout

/-- A binary32 number. -/
structure Binary32 where
  bits : UInt32
deriving DecidableEq, Inhabited

/-- A binary64 number. -/
structure Binary64 where
  bits : UInt64
deriving DecidableEq, Inhabited

def Binary32.decode (x : Binary32) : Decoded := Layout.binary32.decode x.bits.toNat

namespace Binary64

def decode (x : Binary64) : Decoded := Layout.binary64.decode x.bits.toNat

/-- The nearest number to a whole number. -/
def ofInt (n : Int) : Binary64 :=
  ⟨(Layout.binary64.encode (decide (n < 0)) n.natAbs 0).toUInt64⟩

/-- A signed significand moved to a lower power of two. -/
def scaled (negative : Bool) (m : Nat) (power floor : Int) : Int :=
  let n : Nat := m <<< (power - floor).toNat
  if negative then -n else n

/-- The order of two numbers, none when either is not a number. Both zeros are equal. -/
def compare? (x y : Binary64) : Option Ordering :=
  match x.decode, y.decode with
  | .nan, _ | _, .nan => none
  | .infinite a, .infinite b => some (compare b.toNat a.toNat)
  | .infinite a, _ => some (if a then .lt else .gt)
  | _, .infinite b => some (if b then .gt else .lt)
  | .finite a m p, .finite b n q => some (compare (scaled a m p (min p q)) (scaled b n q (min p q)))

/-- The number toward zero, held between two bounds; zero for what is not a number. -/
def truncate (low high : Int) (x : Binary64) : Int :=
  match x.decode with
  | .nan => 0
  | .infinite negative => if negative then low else high
  | .finite negative m p =>
    let size : Nat := if 0 ≤ p then m <<< p.toNat else m >>> (-p).toNat
    max low (min high (if negative then -size else size))

end Binary64

/-- The same number in the wider format. What is not a number keeps its sign and its payload, and
is marked quiet. -/
def Binary32.widen (x : Binary32) : Binary64 :=
  match x.decode with
  | .nan =>
    let sign := x.bits.toUInt64 >>> 31
    let payload := x.bits.toUInt64 &&& 0x7fffff
    let quiet : UInt64 := 0x7ff8000000000000
    ⟨(sign <<< 63) ||| quiet ||| (payload <<< 29)⟩
  | .infinite negative => ⟨(Layout.binary64.infinity negative).toUInt64⟩
  | .finite negative m p => ⟨(Layout.binary64.encode negative m p).toUInt64⟩

end MemberAccess.Number
