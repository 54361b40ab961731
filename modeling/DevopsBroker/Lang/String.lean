import Mathlib.Data.List.Basic

/-!
# `lang/string.linux-x86_64.asm`: strings

The routines that look at whole strings, one character after the other.

Mirroring notes vs the assembly source:
- A string is the list of its characters in front of the `NUL`. The registers hold eight
  characters at a time; what is behind the `NUL` in them is not looked at.
- A pointer that may be `NULL` is an `Option`.
-/

namespace DevopsBroker.Lang

/-- `f6215943_compare`, of two strings. -/
def compare : List UInt8 → List UInt8 → Int
  | [], [] => 0
  | c :: _, [] => c.toNat
  | [], d :: _ => -d.toNat
  | c :: first, d :: second => if c = d then compare first second else (c.toNat : Int) - d.toNat

/-- `f6215943_isEqual`, of two strings. -/
def isEqual : List UInt8 → List UInt8 → Bool
  | [], [] => true
  | c :: foo, d :: bar => if c = d then isEqual foo bar else false
  | _ :: _, [] => false
  | [], _ :: _ => false

/-- `f6215943_hashCode`, of a string. -/
def hashCode (string : List UInt8) : UInt32 :=
  string.foldl (fun eax ch => (eax <<< 3) ^^^ ch.toUInt32) 0

/-- `isEqual` is equality. -/
theorem isEqual_iff {foo bar : List UInt8} : isEqual foo bar = true ↔ foo = bar := by
  induction foo generalizing bar with
  | nil => cases bar <;> simp [isEqual]
  | cons c foo ih =>
    cases bar with
    | nil => simp [isEqual]
    | cons d bar =>
      rw [isEqual, List.cons.injEq]
      split
      next heq => rw [ih, and_iff_right heq]
      next hne => exact iff_of_false Bool.false_ne_true fun h => hne h.1

end DevopsBroker.Lang
