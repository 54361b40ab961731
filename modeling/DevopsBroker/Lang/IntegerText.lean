import DevopsBroker.Lang.Block
import DevopsBroker.Lang.Integer
import DevopsBroker.Lib.Rounds
import DevopsBroker.Lib.Text

/-!
# `lang/integer.c`, `lang/long.c` and `lang/integer.linux-x86_64.asm`: integers as strings

The formatters write a string from its end to its start, into an object that they allocate: a
`Target` is the object, the offset of the character that was written last, and the offsets that
were written. The parsers go over a string in memory.

Mirroring notes vs the source:
- A value whose sign was taken off is a natural number. From there on the four decimal formatters
  are the same.
- `none` is an access outside of the object, or an abort of `malloc`. A string literal is an object
  of its own.
- The loops of the parsers run on fuel, and `none` is out of fuel. Inside of it, `none` is an
  abort; `parse_uint32` prints a message and exits.
- `unsigned` arithmetic is natural numbers modulo a power of two in the parsers that differ in
  nothing else.
- `digitOnes` and `digitTens` have 128 places, of which the last 28 are not initialised: they are
  zeros.
- `dl` of `parseInt` is set once: `isNegative`.
-/

namespace DevopsBroker.Lang

open DevopsBroker.Lib

/-! ## Digits -/

def decimalDigits : List UInt8 := [0x30, 0x31, 0x32, 0x33, 0x34, 0x35, 0x36, 0x37, 0x38, 0x39]

/-- `f6215943_digitOnes`. -/
def digitOnes : List UInt8 := (List.replicate 10 decimalDigits).flatten ++ List.replicate 28 0

/-- `f6215943_digitTens`. -/
def digitTens : List UInt8 := decimalDigits.flatMap (List.replicate 10) ++ List.replicate 28 0

/-- `f6215943_digitHex`. -/
def digitHex : List UInt8 := decimalDigits ++ [0x61, 0x62, 0x63, 0x64, 0x65, 0x66]

/-! ## Sizes -/

/-- `f45efac2_max_uint32`. -/
def max_uint32 (foo bar : UInt32) : UInt32 := if foo > bar then foo else bar

/-- `f45efac2_getStringSize_uint32`. -/
def getStringSize_uint32 (value : UInt32) : UInt32 :=
  if value < 100000 then
    if value < 10 then 2
    else if value < 100 then 3
    else if value < 1000 then 4
    else if value < 10000 then 5
    else 6
  else if value < 1000000 then 7
  else if value < 10000000 then 8
  else if value < 100000000 then 9
  else if value < 1000000000 then 10
  else 11

/-- `f45efac2_getStringSize_int32`. -/
def getStringSize_int32 (value : Int32) : UInt32 :=
  if 0 ≤ value then getStringSize_uint32 value.toUInt32
  else getStringSize_uint32 (-value).toUInt32 + 1

/-- `db0acb04_getStringSize_uint64`. -/
def getStringSize_uint64 (value : UInt64) : UInt32 :=
  if value < 10000000000 then
    if value < 100000 then
      if value < 10 then 2
      else if value < 100 then 3
      else if value < 1000 then 4
      else if value < 10000 then 5
      else 6
    else if value < 1000000 then 7
    else if value < 10000000 then 8
    else if value < 100000000 then 9
    else if value < 1000000000 then 10
    else 11
  else if value < 1000000000000000 then
    if value < 100000000000 then 12
    else if value < 1000000000000 then 13
    else if value < 10000000000000 then 14
    else if value < 100000000000000 then 15
    else 16
  else if value < 10000000000000000 then 17
  else if value < 100000000000000000 then 18
  else if value < 1000000000000000000 then 19
  else if value < 10000000000000000000 then 20
  else 21

/-- `db0acb04_getStringSize_int64`. -/
def getStringSize_int64 (value : Int64) : UInt32 :=
  if 0 ≤ value then getStringSize_uint64 value.toUInt64
  else getStringSize_uint64 (-value).toUInt64 + 1

/-! ## Writing from the end -/

/-- `target`: the object it points into, its offset there, and the offsets that were written, the
last one first. -/
structure Target where
  object : Block
  offset : Nat
  written : List Nat

namespace Target

/-- `(*--target) = ch`. -/
def put (target : Target) (ch : UInt8) : Option Target :=
  match target.offset with
  | 0 => none
  | offset + 1 =>
    (target.object.storeByte offset ch).map fun object => ⟨object, offset, offset :: target.written⟩

/-- A string literal. -/
def literal (text : List UInt8) : Target := ⟨⟨text.length + 1, textMem text⟩, 0, []⟩

/-- `target` is allocated, and the `NUL` is at its end. -/
def allocate (garbage : Mem) (mallocSize : Nat) : Option Target := do
  let object ← malloc garbage mallocSize
  put ⟨object, mallocSize, []⟩ 0

end Target

/-! ## Formatters -/

/-- `while (value >= 100)`, and what is behind it. -/
def writeDecimal (value : Nat) (target : Target) : Option Target :=
  if 100 ≤ value then do
    let remainder := value % 100
    let target ← target.put (digitOnes.getD remainder 0)
    let target ← target.put (digitTens.getD remainder 0)
    writeDecimal (value / 100) target
  else if value < 10 then target.put (UInt8.ofNat (0x30 + value))
  else do
    let target ← target.put (digitOnes.getD value 0)
    target.put (digitTens.getD value 0)
termination_by value

/-- The digits of a value, and the sign. -/
def writeSigned (value : Nat) (sign : Bool) (target : Target) : Option Target := do
  let target ← writeDecimal value target
  if sign then target.put 0x2D else some target

/-- `f45efac2_toString_uint32`. -/
def toString_uint32 (garbage : Mem) (value : UInt32) : Option Target := do
  let target ← Target.allocate garbage (getStringSize_uint32 value).toNat
  writeDecimal value.toNat target

/-- `f45efac2_toString_int32`. -/
def toString_int32 (garbage : Mem) (value : Int32) : Option Target :=
  if value = Int32.minValue then
    some (.literal [0x2D, 0x32, 0x31, 0x34, 0x37, 0x34, 0x38, 0x33, 0x36, 0x34, 0x38])
  else do
    let sign : Bool := value < 0
    let target ← Target.allocate garbage (getStringSize_int32 value).toNat
    writeSigned (if sign then -value else value).toInt.toNat sign target

/-- `db0acb04_toString_uint64`. -/
def toString_uint64 (garbage : Mem) (value : UInt64) : Option Target := do
  let target ← Target.allocate garbage (getStringSize_uint64 value).toNat
  writeDecimal value.toNat target

/-- `db0acb04_toString_int64`. -/
def toString_int64 (garbage : Mem) (value : Int64) : Option Target :=
  if value = Int64.minValue then
    some (.literal [0x2D, 0x39, 0x32, 0x32, 0x33, 0x33, 0x37, 0x32, 0x30, 0x33, 0x36, 0x38, 0x35,
      0x34, 0x37, 0x37, 0x35, 0x38, 0x30, 0x38])
  else do
    let sign : Bool := value < 0
    let target ← Target.allocate garbage (getStringSize_int64 value).toNat
    writeSigned (if sign then -value else value).toInt.toNat sign target

/-- `while (value >= 256)`, and what is behind it. -/
def writeHex (value : Nat) (target : Target) : Option Target :=
  if 256 ≤ value then do
    let target ← target.put (digitHex.getD (value % 16) 0)
    let target ← target.put (digitHex.getD (value / 16 % 16) 0)
    writeHex (value / 16 / 16) target
  else if value < 16 then target.put (digitHex.getD value 0)
  else do
    let target ← target.put (digitHex.getD (value % 16) 0)
    target.put (digitHex.getD (value / 16) 0)
termination_by value

/-- `while (target != end)`. At the start of the object a store fails. -/
def leadingZeros (fin : Nat) : Nat → Target → Option Target
  | 0, target => if target.offset = fin then some target else none
  | more + 1, target =>
    if target.offset = fin then some target
    else do
      let target ← target.put 0x30
      leadingZeros fin more target

/-- `mallocSize` of `toStringHex_uint32`. -/
def hexMallocSize (value precision : UInt32) : UInt32 :=
  max_uint32 (precision + 1) (getStringSize_uint32 value) + 2

/-- `f45efac2_toStringHex_uint32`. -/
def toStringHex_uint32 (garbage : Mem) (value precision : UInt32) : Option Target := do
  let target ← Target.allocate garbage (hexMallocSize value precision).toNat
  let target ← writeHex value.toNat target
  let target ← leadingZeros 2 target.offset target
  -- Add 0x prefix
  let target ← target.put 0x78
  target.put 0x30

/-! ## Parsers -/

/-- `while (ch)`, with the address of the character and the value so far: the value, or the address
of a character that is no digit. -/
def parseRound (width : Nat) (mem : Mem) : Nat × Nat → Option (Turn (Nat × Nat) (Except Nat Nat))
  | (source, value) =>
    let ch := mem source
    if ch = 0 then some (.done (.ok value))
    else
      let digit := signed ch - 0x30
      if digit < 0 ∨ digit > 9 then some (.done (.error source))
      else some (.next (source + 1, (10 * value % 2 ^ width + digit.toNat) % 2 ^ width))

/-- The value, or the message, with the address of the rest of the string in it. -/
def valueOrMessage : Except Nat Nat → Except (String × Nat × String) UInt32
  | .error source => .error ("Invalid unsigned integer: '", source, "'")
  | .ok value => .ok (UInt32.ofNat value)

/-- `f45efac2_parse_uint32`. -/
def parse_uint32 (fuel : Nat) (mem : Mem) (source : Nat) :
    Option (Except (String × Nat × String) UInt32) :=
  (rounds (parseRound 32 mem) fuel (source, 0)).map valueOrMessage

/-- The value, or an abort. -/
def valueOrAbort : Except Nat Nat → Option UInt64
  | .error _ => none
  | .ok value => some (UInt64.ofNat value)

/-- `db0acb04_parse_uint64`. -/
def parse_uint64 (fuel : Nat) (mem : Mem) (source : Nat) : Option (Option UInt64) :=
  (rounds (parseRound 64 mem) fuel (source, 0)).map valueOrAbort

/-- `*source | 0x20`. -/
def folded (ch : UInt8) : UInt8 := ch ||| 0x20

/-- `while (ch == '0' || ch == 'x')`. -/
def skipRound (mem : Mem) (source : Nat) : Option (Turn Nat Nat) :=
  let ch := folded (mem source)
  if ch = 0x30 ∨ ch = 0x78 then some (.next (source + 1)) else some (.done source)

/-- `digit` of a character. -/
def hexDigit (ch : UInt8) : Int := if 0x61 ≤ signed ch then signed ch - 0x61 + 10 else signed ch - 0x30

/-- `while (ch != ' ')`. -/
def hexRound (mem : Mem) : Nat × UInt32 → Option (Turn (Nat × UInt32) (Option UInt32))
  | (source, value) =>
    let ch := folded (mem source)
    if ch = 0x20 then some (.done (some value))
    else
      let digit := hexDigit ch
      if digit < 0 ∨ digit > 15 then some (.done none)
      else some (.next (source + 1, (value <<< 4) + UInt32.ofNat digit.toNat))

/-- `f45efac2_parseHex_uint32`. -/
def parseHex_uint32 (fuel : Nat) (mem : Mem) (source : Nat) : Option (Option UInt32) :=
  (rounds (skipRound mem) fuel source).bind fun source => rounds (hexRound mem) fuel (source, 0)

/-- The registers of `parseInt` in `.whileInteger`. -/
structure ParseIntState where
  rdi : Nat
  r8 : Nat
  dh : Nat
  eax : UInt32

/-- The character is shifted out. Behind the eighth one the next eight are loaded. -/
def ParseIntState.next (mem : Mem) (s : ParseIntState) (eax : UInt32) : ParseIntState :=
  if s.dh + 1 = 8 then ⟨s.rdi + 8, orBytes mem 8 (s.rdi + 8) 0 0, s.dh + 1, eax⟩
  else ⟨s.rdi, s.r8 / 256, s.dh + 1, eax⟩

/-- From `.whileInteger` back to it, to `.invalidInt` or to `.isNegative` with `eax`. -/
def whileIntegerRound (mem : Mem) (s : ParseIntState) : Option (Turn ParseIntState (Option UInt32)) :=
  let ch := lowByte s.r8
  if signed ch > 0x39 then some (.done none)
  else if signed ch < 0x30 then some (.done none)
  else
    let s := s.next mem (10 * s.eax + (ch - 0x30).toUInt32)
    -- `.testWhile`
    if lowByte s.r8 = 0 then some (.done (some s.eax))
    else if s.dh = 11 then some (.done none)
    else some (.next s)

/-- `f45efac2_parseInt`: the return value, and what is stored at `value`. -/
def parseIntIn (fuel : Nat) (mem : Mem) (source : Nat) (value : UInt32) : Option (Int × UInt32) :=
  let r8 := orBytes mem 8 source 0 0
  let isNegative := lowByte r8 = 0x2D
  let s : ParseIntState := if isNegative then ⟨source, r8 / 256, 1, 0⟩ else ⟨source, r8, 0, 0⟩
  -- `.positiveInt`
  if lowByte s.r8 = 0 then some (-1, value)
  else
    (rounds (whileIntegerRound mem) fuel s).map fun eax =>
      match eax with
      | none => (-1, value)
      | some eax => (0, if isNegative then -eax else eax)

end DevopsBroker.Lang
