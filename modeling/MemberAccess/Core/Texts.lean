import MemberAccess.Class.Member
import MemberAccess.Text.LetterCase
import MemberAccess.Text.Split

/-!
# The methods of texts

Positions count characters. `charAt` and `substring` are partial: a position outside the text is
refused with the length of the text, and a substring whose bounds are not in order with its end.

* `substring_eq_ok_iff`: a substring exists exactly for bounds in order inside the text.
-/

namespace MemberAccess.Core

/-- The text that a method of texts is called on. -/
def targetText (target : Value) : Except HostFault String :=
  match target with
  | .null => .error .nullTarget
  | .string s => .ok s
  | v => .error (v.mismatch "String")

/-- The argument at a position, as a text. -/
def textArgument (args : List Value) (i : Nat) : Except HostFault String := do
  match ← convertedArgument args i .string with
  | .string s => pure s
  | v => throw (v.mismatch "String")

/-- The argument at a position, as an int. -/
def intArgument (args : List Value) (i : Nat) : Except HostFault Int32 := do
  match ← convertedArgument args i .int with
  | .int n => pure n
  | v => throw (v.mismatch "int")

def charAt (s : List Char) (index : Int) : Except HostFault Char :=
  match if 0 ≤ index then s[index.toNat]? else none with
  | some c => .ok c
  | none => .error (.indexOutOfBounds index s.length)

/-- The characters from one position up to another; up to the end when there is no other. Positions are ints, and so
is the end. -/
def substring (s : List Char) (first : Int) (last? : Option Int) : Except HostFault (List Char) :=
  let last := last?.getD (Int32.ofNat s.length).toInt
  if 0 ≤ first ∧ first ≤ last ∧ last ≤ s.length then .ok ((s.take last.toNat).drop first.toNat)
  else .error (.indexOutOfBounds (if first < 0 then first else last) s.length)

/-- **Substrings exist for bounds in order inside the text**, and then hold the characters between. -/
theorem substring_eq_ok_iff {s t : List Char} {first last : Int} :
    substring s first (some last) = .ok t ↔
      (0 ≤ first ∧ first ≤ last ∧ last ≤ s.length) ∧ t = (s.take last.toNat).drop first.toNat := by
  unfold substring
  simp only [Option.getD_some]
  split <;> rename_i h <;> simp [h, eq_comm]

/-- Without a last position a substring goes to the end. -/
theorem substring_none (s : List Char) (first : Int) :
    substring s first none = substring s first (some (Int32.ofNat s.length).toInt) := rfl

namespace Texts

def length : Body := .ofPure fun target _ => do
  pure (.int (.ofNat (← targetText target).length))

def charAtBody : Body := .ofPure fun target args => do
  let s ← targetText target
  pure (.char (← charAt s.toList (← intArgument args 0).toInt))

def isEmpty : Body := .ofPure fun target _ => do
  pure (.bool (← targetText target).isEmpty)

def toUpperCase : Body := .ofPure fun target _ => do
  pure (.string (Text.upperText (← targetText target)))

def substringFrom : Body := .ofPure fun target args => do
  let s ← targetText target
  pure (.string (.ofList (← substring s.toList (← intArgument args 0).toInt none)))

def substringBetween : Body := .ofPure fun target args => do
  let s ← targetText target
  let first ← intArgument args 0
  let last ← intArgument args 1
  pure (.string (.ofList (← substring s.toList first.toInt (some last.toInt))))

/-- The argument is looked at before the target. -/
def concat : Body := .ofPure fun target args => do
  let other ← textArgument args 0
  pure (.string ((← targetText target) ++ other))

def contains : Body := .ofPure fun target args => do
  let part ← textArgument args 0
  pure (.bool (Text.occursIn part.toList (← targetText target).toList))

def startsWith : Body := .ofPure fun target args => do
  let start ← textArgument args 0
  pure (.bool (Text.after? start.toList (← targetText target).toList).isSome)

end Texts

end MemberAccess.Core
