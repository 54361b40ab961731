import DevopsBroker.Lib.Text

/-!
# `net/ipv4address.linux-x86_64.asm`: IPv4 addresses and their texts

`initIPv4Address` takes a text apart in a register of eight characters. The register is
loaded for the first two octets, and again for the other two; the suffix is loaded anew
where these left less than two characters of it. `extractString` puts a text together in
four-byte stores: each holds an octet, the character that ends it, and what `ecx` held
before.

Mirroring notes vs the assembly source:
- `.secondChar` and `.thirdChar` are the same steps, and so are `.firstOctet`,
  `.secondOctet` and `.thirdOctet`: the accumulator is zero at first, and shifting it does
  nothing.
- `rax` holds something when `initIPv4Address` is entered. Only `al` is used of it before
  it is cleared, and `al` is set by the first digit.
- `shl r9d, 8` and `mov r9b, al` together put a byte behind the others.
- `div r10b` faults when the quotient has more than eight bits: `none`.
- Numbers in the structure are little endian, as they are in memory.
-/

namespace DevopsBroker.Net

open DevopsBroker.Lib

def ZERO : Nat := 0x30
def NINE : Nat := 0x39
def ERROR_CODE : Int := -1

/-- `struct IPv4Address`. -/
structure IPv4Address where
  address : UInt32
  cidrSuffix : UInt32
  subnetMask : UInt32
  routingPrefix : UInt32
deriving DecidableEq

/-! ## From a text -/

/-- `mul cl` and `add al, dl`. -/
def mulAdd (rax : Nat) (ch : UInt8) : Nat :=
  let ax := rax % 256 * 10
  ax / 256 * 256 + (ax + (ch.toNat - ZERO)) % 256

/-- `.secondChar` and `.thirdChar`; `none` is `.invalidIPv4Address`. -/
def octetChars : Nat → Nat → Nat → Nat → Option (Nat × Nat × Nat)
  | 0, rdx, rax, numChars => some (rdx, rax, numChars)
  | n + 1, rdx, rax, numChars =>
    let ch := lowByte rdx
    if signed ch > NINE then none
    else if signed ch < ZERO then some (rdx, rax, numChars)
    else octetChars n (rdx / 256) (mulAdd rax ch) (numChars + 1)

/-- `convertStringToOctet`: the next characters, the value, and the number of characters. -/
def convertStringToOctet (rdx rax numChars : Nat) : Option (Nat × Nat × Nat) :=
  let ch := lowByte rdx
  if signed ch > NINE then none
  else if signed ch < ZERO then none
  else octetChars 2 (rdx / 256) (rax / 256 * 256 + (ch.toNat - ZERO)) (numChars + 1)

/-- `shl r9d, 8` and `mov r9b, al`. -/
def accumulate (r9 rax : Nat) : Nat := r9 * 256 % 2 ^ 32 + rax % 256

/-- An octet with a `.` behind it: the next characters, the number of characters, and the
accumulator. -/
def dottedOctet (rdx numChars r9 : Nat) : Option (Nat × Nat × Nat) := do
  let (rdx, rax, numChars) ← convertStringToOctet rdx 0 numChars
  if lowByte rdx ≠ 0x2E then none
  else some (rdx / 256, numChars + 1, accumulate r9 rax)

/-- `bswap`. -/
def bswap (register : Nat) : Nat := littleEndian (charsOf 4 register).reverse

/-- `.subnetMask`: the mask and the routing prefix, in network byte order. -/
def maskAndPrefix (address cidrSuffix : UInt32) : UInt32 × UInt32 :=
  let ecx := 0x20 - cidrSuffix
  let subnetMask :=
    if ecx = 0 then 0xffffffff else UInt32.ofNat (bswap (~~~ ((1 <<< ecx) - 1)).toNat)
  (subnetMask, address &&& subnetMask)

/-- `e1e7e8f5_deriveSubnetMask`. -/
def deriveSubnetMask (ipv4Address : IPv4Address) : IPv4Address :=
  let (subnetMask, routingPrefix) := maskAndPrefix ipv4Address.address ipv4Address.cidrSuffix
  { ipv4Address with subnetMask := subnetMask, routingPrefix := routingPrefix }

/-- `.firstOctet` to `.fourthOctet`: the next characters, where the text goes on from the third
octet, the number of characters from there, and the address; `none` is `.invalidIPv4Address`. -/
def fourOctets (mem : Mem) (rsi : Nat) : Option (Nat × Nat × Nat × UInt32) := do
  let (rdx, numChars, r9) ← dottedOctet (orBytes mem 8 rsi 0 0) 0 0
  let (_, numChars, r9) ← dottedOctet rdx numChars r9
  let rsi := rsi + numChars
  let (rdx, numChars, r9) ← dottedOctet (orBytes mem 8 rsi 0 0) 0 r9
  let (rdx, rax, numChars) ← convertStringToOctet rdx 0 numChars
  some (rdx, rsi, numChars, UInt32.ofNat (bswap (accumulate r9 rax)))

/-- The rest of the text: its end, or `.getCIDRSuffix`. -/
def getCIDRSuffix (mem : Mem) (ipv4Address : IPv4Address) (rdx rsi numChars : Nat)
    (address : UInt32) : Option IPv4Address :=
  let withoutSuffix := { ipv4Address with address := address, cidrSuffix := 0 }
  if lowByte rdx = 0 then some withoutSuffix
  else if lowByte rdx ≠ 0x2F then none
  else do
    let numChars := numChars + 1
    let rdx := if numChars ≤ 6 then rdx / 256 else orBytes mem 4 (rsi + numChars) 0 0
    let (rdx, rax, _) ← convertStringToOctet rdx 0 numChars
    if lowByte rdx ≠ 0 then none
    else if rax % 256 > 0x20 then none
    else if rax % 256 = 0 then some withoutSuffix
    else
      some (deriveSubnetMask
        { ipv4Address with address := address, cidrSuffix := UInt32.ofNat rax })

/-- `e1e7e8f5_initIPv4Address`. -/
def initIPv4Address (mem : Mem) (ipAddress : Nat) (ipv4Address : IPv4Address) :
    Int × IPv4Address :=
  match fourOctets mem ipAddress with
  | none => (ERROR_CODE, ipv4Address)
  | some (rdx, rsi, numChars, address) =>
    match getCIDRSuffix mem ipv4Address rdx rsi numChars address with
    | none => (ERROR_CODE, ipv4Address)
    | some ipv4Address => (0, ipv4Address)

/-! ## Into a text -/

/-- `IPv4StringType`. -/
def IPV4_ADDR : Nat := 0
def IVP4_CIDR_SUFFIX : Nat := 256

/-- `shl ecx, 8`, and a character into `cl`. -/
def pushChar (ecx : Nat) (ch : Nat) : Nat := ecx * 256 % 2 ^ 32 + ch % 256

/-- `.greaterThanEqualTo100` and `.greaterThanEqualTo10`: the last digit is pushed, and the
others are left. -/
def pushDigit (ecx ax : Nat) : Option (Nat × Nat) :=
  if ax / 10 < 256 then some (pushChar ecx (ax % 10 + ZERO), ax / 10) else none

/-- Where the next character goes, and what is in the registers of `extractString`. -/
structure TextState where
  mem : Mem
  rdx : Nat
  ecx : Nat

/-- `convertOctetToString`, with `lastByte` in `r9b`. -/
def convertOctetToString (st : TextState) (eax : Nat) (lastByte : UInt8) : Option TextState := do
  let ecx := st.ecx / 256 * 256 + lastByte.toNat
  let al := eax % 256
  let ax := eax % 2 ^ 16
  let (ecx, ax, numBytes) ←
    if al ≥ 0x64 then do
      let (ecx, ax) ← pushDigit ecx ax
      let (ecx, ax) ← pushDigit ecx ax
      some (ecx, ax, 3)
    else if al ≥ 10 then do
      let (ecx, ax) ← pushDigit ecx ax
      some (ecx, ax, 2)
    else some (ecx, ax, 1)
  let ecx := pushChar ecx (ax % 256 + ZERO)
  some { mem := storeBytes st.mem st.rdx (charsOf 4 ecx), rdx := st.rdx + (numBytes + 1), ecx := ecx }

/-- `ipv4Address->[rdi + (rcx * 4)]`. -/
def field (ipv4Address : IPv4Address) : Nat → UInt32
  | 0 => ipv4Address.address
  | 1 => ipv4Address.cidrSuffix
  | 2 => ipv4Address.subnetMask
  | _ => ipv4Address.routingPrefix

/-- `e1e7e8f5_extractString`: the memory with the text in `buffer`. -/
def extractString (mem : Mem) (ipv4Address : IPv4Address) (strType buffer : Nat) : Option Mem := do
  let address := (field ipv4Address (strType % 256)).toNat
  let st : TextState := { mem := mem, rdx := buffer, ecx := 0 }
  let st ← convertOctetToString st (address % 256) 0x2E
  let st ← convertOctetToString st (address / 256 % 256) 0x2E
  let st ← convertOctetToString st (address / 256 / 256 % 256) 0x2E
  let eax := address / 256 / 256 / 256
  if strType / 256 % 256 = 0 then
    let st ← convertOctetToString st eax 0
    some st.mem
  else
    let st ← convertOctetToString st eax 0x2F
    let st ← convertOctetToString st ipv4Address.cidrSuffix.toNat 0
    some st.mem

end DevopsBroker.Net
