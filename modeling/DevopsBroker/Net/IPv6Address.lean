import DevopsBroker.Lib.Hexadecimal
import DevopsBroker.Net.IPv4Address

/-!
# `net/ipv6address.linux-x86_64.asm`: IPv6 addresses and their texts

`initIPv6Address` loads eight characters for every hextet, and shifts its digits into one
register. That register is stored, and cleared, after the fourth hextet and after the
eighth. A hextet that starts with a `:` leads to `processShorthandAddress`, which the source
calls unfinished: what it returns is what its register holds.

`extractString` turns all hextets into characters at once, and then writes them one by one
as a mask says that has a byte for each: `1` for its digits, `0xff` for a part of `::`, and `0`
for a zero. `calculateShorthandBytemask` looks for the longest run of zeros in the mask.

Mirroring notes vs the assembly source:
- `cl` counts up to eight; here the hextets that are left are counted down. In
  `processShorthandAddress` it is incremented until it is six, past 255 if need be.
- `.validateFifthChar` makes the same two comparisons as the loop: `hextetChars` is both.
- `dh` and `r11` are set and never used.
- The address is kept as the two quadwords that are stored.
- The SSE2 instructions do the same to every word; `hextetCharacters` is what they do to one.
- `.processFourHextets` is done for both quadwords; here it is one loop over eight words.
- `.outerLoop` is a loop with fuel, as it does not always end; `none` is out of fuel. `ah` is one
  there, from the constant that was loaded into `rax`.
-/

namespace DevopsBroker.Net

open DevopsBroker.Lib

/-- `struct IPv6Address`. -/
structure IPv6Address where
  /-- `address[0]` to `address[7]`, as they are in memory. -/
  first : UInt64
  /-- `address[8]` to `address[15]`. -/
  second : UInt64
  cidrSuffix : UInt32
deriving DecidableEq

/-- `address`. -/
def IPv6Address.address (ipv6Address : IPv6Address) : List UInt8 :=
  charsOf 8 ipv6Address.first.toNat ++ charsOf 8 ipv6Address.second.toNat

namespace IPv6

def ZERO : UInt8 := 0x30
def COLON : UInt8 := 0x3A
def LOWER_A : UInt8 := 0x61
def LOWER_F : UInt8 := 0x66
def ERROR_CODE : Int := -1

/-- `.decimalChar` and `.hexChar`. -/
def hexDigit (ch : UInt8) : Option Nat :=
  if ch > COLON then
    let ch := ch ||| 0x20
    if ch ≥ LOWER_F then none
    else if ch < LOWER_A then none
    else some (ch.toNat - LOWER_A.toNat + 0x0A)
  else if ch < ZERO then none
  else some (ch.toNat - ZERO.toNat)

/-- `shl rax, 4` and `or al, r8b`. -/
def shiftIn (rax digit : Nat) : Nat := rax * 16 % 2 ^ 64 + digit

/-- Behind `.assignValue`, with `ch` characters to come at most: the next character, the value,
and where the text goes on; `none` is `.invalidIPv6Address`. -/
def hextetChars : Nat → Nat → Nat → Nat → Option (Nat × Nat × Nat)
  | ch, r8, rax, rsi =>
    if lowByte r8 = 0 then some (r8, rax, rsi)
    else if lowByte r8 = COLON then some (r8, rax, rsi + 1)
    else
      match ch with
      | 0 => none
      | ch + 1 => do
        let digit ← hexDigit (lowByte r8)
        hextetChars ch (r8 / 256) (shiftIn rax digit) (rsi + 1)

/-- `convertStringToHextet`. -/
def convertStringToHextet (r8 rax rsi : Nat) : Option (Nat × Nat × Nat) := do
  let digit ← hexDigit (lowByte r8)
  hextetChars 3 (r8 / 256) (shiftIn rax digit) (rsi + 1)

/-- A 32-bit return value. -/
def returned (rax : Nat) : Int :=
  let eax : Nat := rax % 2 ^ 32
  if eax < 2 ^ 31 then eax else (eax : Int) - 2 ^ 32

/-- `.doWhile` of `processShorthandAddress`, with so many hextets to go. -/
def shorthandLoop (mem : Mem) : Nat → Nat → Nat → Nat → Int
  | 0, rax, _, r8 => if lowByte r8 = 0 then returned rax else ERROR_CODE
  | n + 1, rax, rsi, r8 =>
    let rax := if n + 1 = 2 then 0 else rax
    match convertStringToHextet r8 rax rsi with
    | none => ERROR_CODE
    | some (r8, rax, rsi) =>
      shorthandLoop mem n rax rsi (if n = 0 then r8 else orBytes mem 8 rsi 0 0)

/-- `processShorthandAddress`. -/
def processShorthandAddress (mem : Mem) (cl rax rsi r8 : Nat) : Int :=
  let r8 := r8 / 256
  if lowByte r8 = 0 then returned rax
  else shorthandLoop mem ((260 - cl) % 256 + 1) rax rsi r8

/-- `bswap rax`. -/
def bswap64 (rax : Nat) : UInt64 := UInt64.ofNat (littleEndian (charsOf 8 rax).reverse)

/-- `.doWhile` of `b7808f25_initIPv6Address`, with so many hextets to go. -/
def doWhile (mem : Mem) : Nat → Nat → Nat → IPv6Address → Int × IPv6Address
  | 0, rax, _, ipv6Address => (0, { ipv6Address with second := bswap64 rax })
  | n + 1, rax, rsi, ipv6Address =>
    let r8 := orBytes mem 8 rsi 0 0
    if lowByte r8 = COLON then
      (processShorthandAddress mem (8 - (n + 1)) rax rsi r8, ipv6Address)
    else
      match convertStringToHextet r8 rax rsi with
      | none => (ERROR_CODE, ipv6Address)
      | some (_, rax, rsi) =>
        if n = 4 then doWhile mem n 0 rsi { ipv6Address with first := bswap64 rax }
        else doWhile mem n rax rsi ipv6Address

/-- `b7808f25_initIPv6Address`. -/
def initIPv6Address (mem : Mem) (ipAddress : Nat) (ipv6Address : IPv6Address) :
    Int × IPv6Address :=
  doWhile mem 8 0 ipAddress ipv6Address

/-! ## Into a text -/

/-- `'0'` or `'W'` is added. -/
def nibbleChar (x : Nat) : Nat := if x < 10 then x + 0x30 else x + 0x57

/-- `.firstCharacter` to `.unpackWords`: the four characters of a word. -/
def hextetCharacters (word : Nat) : Nat :=
  let xmm8 := nibbleChar (word % 16) * 256 + nibbleChar (word / 16 % 16)
  let xmm9 := nibbleChar (word / 256 % 16) * 256 + nibbleChar (word / 4096)
  xmm8 + xmm9 * 2 ^ 16

/-- Bytes as words. -/
def wordsOf : List UInt8 → List Nat
  | low :: high :: bytes => (low.toNat + 256 * high.toNat) :: wordsOf bytes
  | _ => []

/-- `.processFourHextets`: a one for every word that is not zero. -/
def hextetBits : List Nat → Nat → Nat → Nat
  | [], _, r11 => r11
  | word :: words, rcx, r11 =>
    hextetBits words (rcx * 256) (if word = 0 then r11 else r11 ||| rcx)

/-- Ones in all bytes. -/
def allOnes : Nat := 0x0101010101010101

/-- The registers of `.outerLoop`: what is left of the mask, the best length and index, the
current index, and the hextets that are left. -/
structure MaskState where
  r8 : Nat
  dh : Nat
  dl : Nat
  cl : Nat
  al : Nat
deriving DecidableEq

/-- `.innerLoop`: the current length, the mask, and the hextets that are left. -/
def innerLoop : Nat → Nat → Nat → Nat × Nat × Nat
  | 0, r8, ch => (ch + 1, r8, 0)
  | al + 1, r8, ch =>
    if r8 / 256 % 2 ^ 16 = 0 then innerLoop al (r8 / 256) (ch + 1) else (ch + 1, r8 / 256, al)

/-- From `.outerLoop` to `.outerLoop`, or to the best length and index. -/
def outerStep (st : MaskState) : MaskState ⊕ (Nat × Nat) :=
  if st.r8 % 2 ^ 16 = 0 then
    let (ch, r8, al) := innerLoop st.al st.r8 1
    let cl := (st.cl + ch) % 256
    if ch ≤ st.dh then .inl { st with r8 := r8, cl := cl, al := al }
    else if al = 0 then .inr (ch, st.cl)
    else .inl { r8 := r8, dh := ch, dl := st.cl, cl := cl, al := al }
  else if st.al = 0 then .inr (st.dh, st.dl)
  else .inl { st with r8 := st.r8 / 256, cl := (st.cl + 1) % 256, al := st.al - 1 }

/-- `.outerLoop`. -/
def outerLoop : Nat → MaskState → Option (Nat × Nat)
  | 0, _ => none
  | fuel + 1, st =>
    match outerStep st with
    | .inl st => outerLoop fuel st
    | .inr best => some best

/-- `.buildAdjustBytemaskLoop`. -/
def buildAdjustBytemask : Nat → Nat → Nat
  | 0, rax => rax
  | dh + 1, rax => buildAdjustBytemask dh (rax * 256 % 2 ^ 64 ||| 0xff)

/-- `calculateShorthandBytemask`. -/
def calculateShorthandBytemask (fuel : Nat) (words : List Nat) : Option Nat := do
  let r11 := hextetBits words 1 0
  if r11 = allOnes then some r11
  else
    let (dh, dl) ← outerLoop fuel { r8 := r11, dh := 0, dl := 0, cl := 0, al := 6 }
    if dh = 0 then some (r11 ||| allOnes)
    else
      let cl := dl * 8 % 256
      some (r11 ||| buildAdjustBytemask (dh - 2) 0xffff * 2 ^ (cl % 64) % 2 ^ 64)

/-- Where the next character goes, and `isShorthand`. -/
structure HextetState where
  mem : Mem
  rsi : Nat
  ah : Nat

/-- `.LWHILE0`: the characters from the first on that is no zero, and their number. -/
def stripZeros : Nat → Nat → Nat × Nat
  | 0, rdx => (rdx, 0)
  | cl + 1, rdx => if lowByte rdx = ZERO then stripZeros cl (rdx / 256) else (rdx, cl + 1)

/-- `processHextet`, with the low byte of the mask. -/
def processHextet (st : HextetState) (word : Nat) (bytemask : UInt8) : HextetState :=
  if bytemask = 0x01 then
    let (rdx, cl) := stripZeros 5 (hextetCharacters word ||| 0x3A00000000)
    { mem := storeBytes st.mem st.rsi (charsOf 8 rdx), rsi := st.rsi + cl, ah := 0 }
  else if bytemask = 0xff then
    if st.ah ≠ 0 then st
    else
      { mem := storeBytes st.mem st.rsi (charsOf 4 0x3A), rsi := st.rsi + 1, ah := st.ah + 1 }
  else { st with mem := storeBytes st.mem st.rsi (charsOf 4 0x3A00), rsi := st.rsi + 2 }

/-- `.calcCIDRSuffix`. -/
def calcCIDRSuffix (mem : Mem) (rsi eax : Nat) : Option Mem := do
  let al := eax % 256
  let ax := eax % 2 ^ 16
  let (edx, ax) ←
    if al ≥ 0x64 then do
      let (edx, ax) ← pushDigit 0 ax
      pushDigit edx ax
    else if al ≥ 0x0a then pushDigit 0 ax
    else some (0, ax)
  let edx := pushChar edx (ax % 256 + 0x30)
  some (storeBytes mem rsi (charsOf 8 (pushChar edx 0x2F)))

/-- `b7808f25_extractString`: the memory with the text in `buffer`. -/
def extractString (fuel : Nat) (mem : Mem) (ipv6Address : IPv6Address) (buffer : Nat) :
    Option Mem := do
  let words := wordsOf ipv6Address.address
  let r11 ← calculateShorthandBytemask fuel words
  let st := (words.zip (charsOf 8 r11)).foldl (fun st hextet => processHextet st hextet.1 hextet.2)
    { mem := mem, rsi := buffer, ah := 0 }
  let eax := ipv6Address.cidrSuffix.toNat
  if st.ah ≠ 0 then calcCIDRSuffix st.mem st.rsi eax
  else if eax ≠ 0 then calcCIDRSuffix st.mem (st.rsi - 1) eax
  else some (storeBytes st.mem (st.rsi - 1) (charsOf 4 eax))

end IPv6

end DevopsBroker.Net
