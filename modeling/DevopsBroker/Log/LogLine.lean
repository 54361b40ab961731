import DevopsBroker.Lang.IntegerText
import DevopsBroker.Lang.StringScan
import DevopsBroker.Text.LineBuffer

/-!
# `log/logline.c`: the lines of a firewall log

`initLogLine` looks for the fields of a line one behind the other, and ends each of them with a `NUL`.
A `LogLine` points into the line. `cloneLogLine` copies the line from its first field to the end of
its protocol, and moves the pointers over to the copy.

Mirroring notes vs the C source:
- The string literals are in memory with everything else; `Literals` is where they are.
- `none` is a field that is read from `NULL`, an exit of `parse_uint32`, or out of fuel.
- `initLogLine` sets every member. Where the line was read to, its local variable `position`, is
  returned with the memory.
- A new `LogLine` holds what its memory held before, as `malloc` does not clear it. `buffer` is what
  `stralloc` returns.
- A pointer is moved by adding before subtracting.
-/

namespace DevopsBroker.Log

open DevopsBroker.Lang DevopsBroker.Lib
open DevopsBroker.Text (Line)

def IN : List UInt8 := [0x49, 0x4E, 0x3D]
def OUT : List UInt8 := [0x4F, 0x55, 0x54, 0x3D]
def MAC : List UInt8 := [0x4D, 0x41, 0x43, 0x3D]
def SRC : List UInt8 := [0x53, 0x52, 0x43, 0x3D]
def DST : List UInt8 := [0x44, 0x53, 0x54, 0x3D]
def PROTO : List UInt8 := [0x50, 0x52, 0x4F, 0x54, 0x4F, 0x3D]
def ICMP : List UInt8 := [0x49, 0x43, 0x4D, 0x50]
def TYPE : List UInt8 := [0x54, 0x59, 0x50, 0x45, 0x3D]
def TWO : List UInt8 := [0x32]
def IGMP : List UInt8 := [0x49, 0x47, 0x4D, 0x50]
def SPT : List UInt8 := [0x53, 0x50, 0x54, 0x3D]
def DPT : List UInt8 := [0x44, 0x50, 0x54, 0x3D]

/-- Where the string literals are. -/
structure Literals where
  in_ : Nat
  out : Nat
  mac : Nat
  src : Nat
  dst : Nat
  proto : Nat
  icmp : Nat
  type : Nat
  two : Nat
  igmp : Nat
  spt : Nat
  dpt : Nat

/-- `struct LogLine`. -/
structure LogLine where
  in_ : Nat
  out : Nat
  macAddress : Nat
  sourceIPAddr : Nat
  destIPAddr : Nat
  protocol : Nat
  sourcePort : UInt32
  destPort : UInt32
  count : UInt32
  lineLength : UInt32
deriving DecidableEq

/-! ## `initLogLine` -/

/-- `while (ch && ch != ' ')`. -/
def fieldRound (mem : Mem) (field : Nat) : Option (Turn Nat Nat) :=
  let ch := mem field
  if ch ≠ 0 ∧ ch ≠ SPACE then some (.next (field + 1)) else some (.done field)

/-- `terminateField`: what is behind the field, and the memory. -/
def terminateField (fuel : Nat) (mem : Mem) (field : Nat) : Option (Nat × Mem) :=
  if field = 0 then none
  else do
    let field ← rounds (fieldRound mem) fuel field
    some (field + 1, storeByte mem field 0)

/-- A search and `terminateField`: the field, what is behind it, and the memory. -/
def findField (fuel : Nat) (mem : Mem) (pattern position : Nat) : Option (Nat × Nat × Mem) := do
  let field ← Lang.search fuel mem pattern position
  let (position, mem) ← terminateField fuel mem field
  some (field, position, mem)

/-- A field that may be missing. -/
def findOptional (fuel : Nat) (mem : Mem) (pattern position : Nat) : Option (Nat × Nat × Mem) := do
  let field ← Lang.search fuel mem pattern position
  if field ≠ 0 then
    let (position, mem) ← terminateField fuel mem field
    some (field, position, mem)
  else some (field, position, mem)

/-- `parse_uint32`, where it does not exit. -/
def parsePort (fuel : Nat) (mem : Mem) (source : Nat) : Option UInt32 := do
  let value ← parse_uint32 fuel mem source
  value.toOption

/-- What `initLogLine` does with the protocol: the protocol, both ports, where the line was read
to, and the memory. -/
def readPorts (fuel : Nat) (literals : Literals) (mem : Mem) (protocol position : Nat) :
    Option (Nat × UInt32 × UInt32 × Nat × Mem) := do
  if (← startsWith fuel mem literals.icmp protocol) ≠ 0 then
    -- ICMP Type
    let (icmpType, position, mem) ← findField fuel mem literals.type position
    let sourcePort ← parsePort fuel mem icmpType
    some (protocol, sourcePort, 0, position, mem)
  else if (← isEqualIn fuel mem literals.two protocol) then
    -- IGMP Type
    some (literals.igmp, 0, 0, position, mem)
  else
    let (port, position, mem) ← findField fuel mem literals.spt position
    let sourcePort ← parsePort fuel mem port
    let (port, position, mem) ← findField fuel mem literals.dpt position
    let destPort ← parsePort fuel mem port
    some (protocol, sourcePort, destPort, position, mem)

/-- `b45c9f7e_initLogLine`: the fields, where the line was read to, and the memory. -/
def initLogLine (fuel : Nat) (literals : Literals) (mem : Mem) (line : Line) :
    Option (LogLine × Nat × Mem) := do
  let (in_, position, mem) ← findField fuel mem literals.in_ line.value
  let (out, position, mem) ← findField fuel mem literals.out position
  let (macAddress, position, mem) ← findOptional fuel mem literals.mac position
  let (sourceIPAddr, position, mem) ← findField fuel mem literals.src position
  let (destIPAddr, position, mem) ← findField fuel mem literals.dst position
  let (protocol, position, mem) ← findField fuel mem literals.proto position
  let lineLength := UInt32.ofNat (position - in_)
  let (protocol, sourcePort, destPort, position, mem) ←
    readPorts fuel literals mem protocol position
  some (⟨in_, out, macAddress, sourceIPAddr, destIPAddr, protocol, sourcePort, destPort, 1,
    lineLength⟩, position, mem)

/-! ## `cloneLogLine` -/

/-- `b45c9f7e_cloneLogLine`: the clone, and the memory. -/
def cloneLogLine (fuel : Nat) (literals : Literals) (mem : Mem) (logLine clone : LogLine)
    (buffer : Nat) : Option (LogLine × Mem) := do
  let moved (field : Nat) := buffer + field - logLine.in_
  let mem := (copyToBuffer mem logLine.in_ buffer logLine.lineLength).2
  let clone := { clone with in_ := buffer, out := moved logLine.out }
  let clone :=
    if logLine.macAddress ≠ 0 then { clone with macAddress := moved logLine.macAddress } else clone
  let clone := { clone with
    sourceIPAddr := moved logLine.sourceIPAddr
    destIPAddr := moved logLine.destIPAddr }
  let clone ←
    if (← isEqualIn fuel mem literals.igmp logLine.protocol) then
      some { clone with protocol := literals.igmp, sourcePort := 0, destPort := 0 }
    else
      some { clone with
        protocol := moved logLine.protocol
        sourcePort := logLine.sourcePort
        destPort := logLine.destPort }
  some ({ clone with lineLength := logLine.lineLength, count := logLine.count }, mem)

end DevopsBroker.Log
