import DevopsBroker.Lib.Characters

/-!
# `lang/integer.linux-x86_64.asm`: signed integers in strings

`parseInt` reads an optional minus and decimal digits, eleven characters in all at most.

Mirroring notes vs the assembly source:
- A string is the list of its characters in front of the `NUL`; eight of them at a time are in
  `r8`. `dh` counts them.
- `.invalidInt` is `none`.
-/

namespace DevopsBroker.Lang

open DevopsBroker.Lib (signed)

/-- `.whileInteger`: `eax` at the `NUL`. -/
def whileInteger : List UInt8 → Nat → UInt32 → Option UInt32
  | [], _, _ => none
  | ch :: source, numChars, eax =>
    -- both comparisons are signed
    if signed ch > 0x39 then none
    else if signed ch < 0x30 then none
    else
      let eax := 10 * eax + (ch - 0x30).toUInt32
      match source with
      | [] => some eax
      | _ :: _ => if numChars + 1 = 11 then none else whileInteger source (numChars + 1) eax

/-- `f45efac2_parseInt`: the return value, and what is stored at `value`. -/
def parseInt (source : List UInt8) (value : UInt32) : Int × UInt32 :=
  let eax :=
    match source with
    | 0x2D :: source => (whileInteger source 1 0).map fun eax => -eax
    | _ => whileInteger source 0 0
  match eax with
  | none => (-1, value)
  | some eax => (0, eax)

end DevopsBroker.Lang
