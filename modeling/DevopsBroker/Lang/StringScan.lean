import DevopsBroker.Lang.Memory
import DevopsBroker.Lib.Cursor
import DevopsBroker.Lib.Rounds

/-!
# `lang/string.linux-x86_64.asm` and `lang/string.c`: strings in memory

The routines that go over strings in memory, eight characters at a time. Each loop is one round
from label to label, with what is in the registers as its state.

Mirroring notes vs the source:
- A register with characters, the pointer that goes with it and its loop counter are a `Cursor`.
  `compare` and `isEqual` add eight to the pointers at each load; here the address is always the
  one of the next character, as in the other routines.
- `.whileEqual` of `endsWith` has one counter for both registers: they are loaded together.
- `.firstChar` and `.nextChars` are the same steps. So are `.manageCharBufferOne` and
  `.manageCharBufferTwo`, which go through `getNextCharacter`.
- `NULL` is address zero. A prefetch does nothing.
- The loops run on fuel; `none` is out of fuel.
-/

namespace DevopsBroker.Lang

open DevopsBroker.Lib

def TAB : UInt8 := 0x09
def SPACE : UInt8 := 0x20

/-! ## Comparing -/

/-- `cwde`. -/
def cwde (ax : Nat) : Int := if ax < 2 ^ 15 then ax else (ax : Int) - 2 ^ 16

/-- `.firstChar` and `.nextChars` of `compare`. -/
def compareRound (mem : Mem) : Cursor × Cursor → Option (Turn (Cursor × Cursor) Int)
  | (first, second) =>
    let ax := (first.char.toNat + 2 ^ 16 - second.char.toNat) % 2 ^ 16
    if ax ≠ 0 then some (.done (cwde ax))
    else if first.char = 0 then some (.done 0)
    else some (.next (first.next mem, second.next mem))

/-- `f6215943_compare`. -/
def compareIn (fuel : Nat) (mem : Mem) (first second : Nat) : Option Int :=
  if first = second then some 0
  else if first = 0 then some (-1)
  else if second = 0 then some 1
  else rounds (compareRound mem) fuel (.load mem first, .load mem second)

/-- `.firstChar` and `.nextChars` of `isEqual`. -/
def isEqualRound (mem : Mem) : Cursor × Cursor → Option (Turn (Cursor × Cursor) Bool)
  | (foo, bar) =>
    if foo.char ≠ bar.char then some (.done false)
    else if foo.char = 0 then some (.done true)
    else some (.next (foo.next mem, bar.next mem))

/-- `f6215943_isEqual`. -/
def isEqualIn (fuel : Nat) (mem : Mem) (foo bar : Nat) : Option Bool :=
  if foo = bar then some true
  else if foo = 0 then some false
  else if bar = 0 then some false
  else rounds (isEqualRound mem) fuel (.load mem foo, .load mem bar)

/-- `while (fooCh && barCh && fooCh == barCh)`. -/
def isNotEqualRound (mem : Mem) : Nat × Nat → Option (Turn (Nat × Nat) Bool)
  | (foo, bar) =>
    let fooCh := mem foo
    let barCh := mem bar
    if fooCh ≠ 0 ∧ barCh ≠ 0 ∧ fooCh = barCh then some (.next (foo + 1, bar + 1))
    else some (.done (fooCh != barCh))

/-- `f6215943_isNotEqual`. -/
def isNotEqual (fuel : Nat) (mem : Mem) (foo bar : Nat) : Option Bool :=
  if foo = bar then some false
  else if foo = 0 ∨ bar = 0 then some true
  else rounds (isNotEqualRound mem) fuel (foo, bar)

/-- `.whileString` and `.whileChars` of `hashCode`. -/
def hashCodeRound (mem : Mem) : UInt32 × Cursor → Option (Turn (UInt32 × Cursor) UInt32)
  | (eax, string) =>
    if string.char = 0 then some (.done eax)
    else some (.next ((eax <<< 3) ^^^ string.char.toUInt32, string.next mem))

/-- `f6215943_hashCode`. -/
def hashCodeIn (fuel : Nat) (mem : Mem) (string : Nat) : Option UInt32 :=
  if string = 0 then some 0 else rounds (hashCodeRound mem) fuel (0, .load mem string)

/-! ## Searching -/

/-- `.whileText` of `search`: the two cursors, with the start of the pattern in `rdx`. -/
def searchRound (mem : Mem) (rdx : Nat) : Cursor × Cursor → Option (Turn (Cursor × Cursor) Nat)
  | (pattern, text) =>
    if pattern.char ≠ text.char then
      -- `.wasMatchFound`
      if pattern.char = 0 then some (.done text.address)
      else if text.char = 0 then some (.done 0)
      -- the text goes on behind the character that did not match
      else some (.next (.load mem rdx, text.next mem))
    else if pattern.char = 0 then some (.done text.address)
    else some (.next (pattern.next mem, text.next mem))

/-- `f6215943_search`. -/
def search (fuel : Nat) (mem : Mem) (pattern text : Nat) : Option Nat :=
  if pattern = 0 then some 0
  else if text = 0 then some 0
  else rounds (searchRound mem pattern) fuel (.load mem pattern, .load mem text)

/-- `while (ch && ch == *text)`, with where the pattern and the text go on. -/
def startsWithRound (mem : Mem) : Nat × Nat → Option (Turn (Nat × Nat) Nat)
  | (pattern, text) =>
    let ch := mem pattern
    if ch ≠ 0 ∧ ch = mem text then some (.next (pattern + 1, text + 1))
    else some (.done (if ch = 0 then text else 0))

/-- `f6215943_startsWith`. -/
def startsWith (fuel : Nat) (mem : Mem) (pattern text : Nat) : Option Nat :=
  rounds (startsWithRound mem) fuel (pattern, text)

/-- The registers of `endsWith`: in `.whileText`, or in `.whileEqual` with the start of the
candidate in `r11`. -/
inductive EndsWithState where
  | whileText (pattern text : Cursor)
  | whileEqual (pattern text : Cursor) (r11 : Nat)

/-- From `.whileText` or `.whileEqual` to one of them, with the start of the pattern in `r10`. -/
def endsWithRound (mem : Mem) (r10 : Nat) : EndsWithState → Option (Turn EndsWithState Bool)
  | .whileText pattern text =>
    if pattern.char = text.char then
      some (.next (.whileEqual pattern (.load mem text.address) text.address))
    else if text.char = 0 then some (.done false)
    else some (.next (.whileText pattern (text.next mem)))
  | .whileEqual pattern text r11 =>
    if pattern.char ≠ text.char then
      if text.char = 0 then some (.done false)
      else some (.next (.whileText (.load mem r10) (.load mem (r11 + 1))))
    else if text.char = 0 then some (.done true)
    else some (.next (.whileEqual (pattern.next mem) (text.next mem) r11))

/-- `f6215943_endsWith`. -/
def endsWith (fuel : Nat) (mem : Mem) (pattern text : Nat) : Option Bool :=
  if pattern = 0 then some false
  else if text = 0 then some false
  else rounds (endsWithRound mem pattern) fuel (.whileText (.load mem pattern) (.load mem text))

/-! ## Changing -/

/-- The registers of `trim`: in `.whileSpace`, or in `.whileString` with the string in `rax` and
the last character that is no blank in `rcx`. -/
inductive TrimState where
  | whileSpace (string : Cursor)
  | whileString (string : Cursor) (rax rcx : Nat)

/-- From `.whileSpace` or `.whileString` to one of them. -/
def trimRound (mem : Mem) : TrimState → Option (Turn TrimState (Nat × Mem))
  | .whileSpace string =>
    if string.char = 0 then some (.done (string.address, mem))
    else if string.char = SPACE ∨ string.char = TAB then
      some (.next (.whileSpace (string.next mem)))
    else some (.next (.whileString string string.address string.address))
  | .whileString string rax rcx =>
    if string.char = 0 then
      if rcx + 1 = string.address then some (.done (rax, mem))
      else some (.done (rax, storeByte mem (rcx + 1) 0))
    else if string.char = SPACE ∨ string.char = TAB then
      some (.next (.whileString (string.next mem) rax rcx))
    else some (.next (.whileString (string.next mem) rax string.address))

/-- `f6215943_trim`: the string, and the memory. -/
def trim (fuel : Nat) (mem : Mem) (string : Nat) : Option (Nat × Mem) :=
  rounds (trimRound mem) fuel (.whileSpace (.load mem string))

/-- A byte that is read or written. -/
inductive ByteAccess where
  | read (address : Nat)
  | write (address : Nat)
deriving DecidableEq

/-- `rep movsb`: what is accessed, and the memory. -/
def repMovsb : Nat → Nat → Nat → Mem → List ByteAccess × Mem
  | 0, _, _, mem => ([], mem)
  | ecx + 1, rsi, rdi, mem =>
    let (accesses, mem) := repMovsb ecx (rsi + 1) (rdi + 1) (storeByte mem rdi (mem rsi))
    (.read rsi :: .write rdi :: accesses, mem)

/-- `f6215943_copyToBuffer`: what is accessed, and the memory. -/
def copyToBuffer (mem : Mem) (source buffer : Nat) (numBytes : UInt32) : List ByteAccess × Mem :=
  if source = 0 then ([], mem)
  else if buffer = 0 then ([], mem)
  else if numBytes = 0 then ([], mem)
  else
    let (accesses, mem) := repMovsb numBytes.toNat source buffer mem
    let rdi := buffer + numBytes.toNat
    (accesses ++ [.write rdi], storeByte mem rdi 0)

/-! ## Cutting -/

theorem storeByte_eq_storeBytes (mem : Mem) (address : Nat) (value : UInt8) :
    storeByte mem address value = storeBytes mem address [value] := by
  funext a
  unfold storeByte storeBytes
  by_cases ha : a = address
  · subst ha
    rw [if_pos rfl, if_pos ⟨Nat.le_refl a, Nat.lt_succ_self a⟩, Nat.sub_self]
    rfl
  · rw [if_neg ha, if_neg (by simp only [List.length_singleton]; omega)]

end DevopsBroker.Lang

namespace DevopsBroker.Lib

/-- A `NUL` inside of a text ends it there. -/
theorem TextAt.cut {mem : Mem} {p : Nat} {kept more : List UInt8} (h : TextAt mem p (kept ++ more)) :
    TextAt (Lang.storeByte mem (p + kept.length) 0) p kept where
  noNul := fun hmem => h.noNul (List.mem_append_left more hmem)
  bytes := by
    have hkept : bytesAt mem p kept.length = kept := by
      rw [h.bytesAt_take, List.append_assoc, List.take_left']
      rfl
    have hstored := @bytesAt_storeBytes mem p kept [0] [] hkept
    rw [List.append_nil, List.length_append, List.length_singleton] at hstored
    rw [Lang.storeByte_eq_storeBytes]
    exact hstored

end DevopsBroker.Lib
