import DevopsBroker.Compress.IoBuffer
import DevopsBroker.Compress.Huffman
import DevopsBroker.Lang.Memory

/-!
# `compress/inflate.c`: decompression

`inflate` reads block after block. For a block with dynamic Huffman codes it reads
the code that the code lengths are stored in, the code lengths, and then
literals and back references until the end of the block. Stored blocks and
blocks with the fixed codes are announced on `stdout` and otherwise skipped.

Mirroring notes vs the C source:
- The output slab is a memory of its own, from address `0` on; `length` is a
  `uint32_t` that never passes the slab's size.
- `codeLengthArray` (320 entries) is filled front to back: the entries written so
  far are kept as a list, and writing past the end, or copying when there is no
  entry yet, is undefined behaviour.
- The local variable `numBitsUsed` is not initialised, and `huffmanDecode` does
  not set it when it fails: `garbage` gives the value it starts with, for each
  position in the stream. Shifting `bits` by it is immaterial, as `bits` is not
  used any more after a failure.
- `none` stands for undefined behaviour, and for loops that run out of fuel. Each
  round of a loop stores a code length, or consumes a bit, or ends the loop.
-/

namespace DevopsBroker.Compress

open DevopsBroker.Lib DevopsBroker.Io DevopsBroker.Lang

/-- `InflationStatus`. -/
inductive InflationStatus where
  | success
  | needInput
  | outputFull
  | inputError
deriving DecidableEq, Repr

/-- `INFLATE_OUTPUT_LENGTH`. -/
abbrev INFLATE_OUTPUT_LENGTH : Nat := 32768

/-- `struct OutputBuffer`: the slab and how much of it is filled. -/
structure OutputBuffer where
  buffer : Mem
  length : Nat

/-- `struct Inflate`. -/
structure Inflate where
  inputBuffer : InputBuffer
  outputBuffer : OutputBuffer
  status : InflationStatus

/-- `d592eb82_initInflate`; `slab` is whatever the acquired slab holds. -/
def initInflate (slab : Mem) (fileBuffer : FileBuffer) (next : List FileBuffer)
    (compressSize : Nat) : Inflate :=
  { inputBuffer := initInputBuffer fileBuffer next compressSize
    outputBuffer := ⟨slab, 0⟩
    status := .success }

/-- `codelenLengthsOrder`. -/
def codelenLengthsOrder : List Nat :=
  [16, 17, 18, 0, 8, 7, 9, 6, 10, 5, 11, 4, 12, 3, 13, 2, 14, 1, 15]

/-- `litlen_tbl`: base length and number of extra bits. -/
def litlenTbl : Array (Nat × Nat) :=
  #[(3, 0), (4, 0), (5, 0), (6, 0), (7, 0), (8, 0), (9, 0), (10, 0), (11, 1), (13, 1), (15, 1),
    (17, 1), (19, 2), (23, 2), (27, 2), (31, 2), (35, 3), (43, 3), (51, 3), (59, 3), (67, 4),
    (83, 4), (99, 4), (115, 4), (131, 5), (163, 5), (195, 5), (227, 5), (258, 0)]

/-- `dist_tbl`: base distance and number of extra bits. -/
def distTbl : Array (Nat × Nat) :=
  #[(1, 0), (2, 0), (3, 0), (4, 0), (5, 1), (7, 1), (9, 2), (13, 2), (17, 3), (25, 3), (33, 4),
    (49, 4), (65, 5), (97, 5), (129, 6), (193, 6), (257, 7), (385, 7), (513, 8), (769, 8),
    (1025, 9), (1537, 9), (2049, 10), (3073, 10), (4097, 11), (6145, 11), (8193, 12), (12289, 12),
    (16385, 13), (24577, 13)]

/-- Return `false` with a status. -/
def Inflate.fail (inflate : Inflate) (status : InflationStatus) : Bool × Inflate :=
  (false, { inflate with status := status })

/-! ## Back references -/

/-- `round_up(x, 8)`. -/
def roundUp8 (x : Nat) : Nat := (x + 7) / 8 * 8

/-- `lz77_output_backref`: byte by byte, so that the copy may overlap itself. -/
def lz77OutputBackref (ob : OutputBuffer) (dist length : Nat) : Mem :=
  copyChunks 1 length (ob.length - dist) ob.length ob.buffer

/-- `output_backref64`. -/
def outputBackref64 (ob : OutputBuffer) (dist length : Nat) : Mem :=
  if length > dist then lz77OutputBackref ob dist length
  else memcopy ob.buffer (ob.length - dist) ob.length length

/-- The bounds check and the copy at the end of a round of
`processLiteralBackrefBlock`; `none` when the slab is full. -/
def outputBackref (ob : OutputBuffer) (dist length : Nat) : Option OutputBuffer :=
  if roundUp8 length ≤ INFLATE_OUTPUT_LENGTH - ob.length then
    some ⟨outputBackref64 ob dist length, ob.length + length⟩
  else if length ≤ INFLATE_OUTPUT_LENGTH - ob.length then
    some ⟨lz77OutputBackref ob dist length, ob.length + length⟩
  else none

/-! ## Literals and back references -/

/-- The end of a round: go on, or return. -/
inductive Round where
  | next (inflate : Inflate) (numBitsUsed : Nat)
  | done (result : Bool × Inflate)

/-- The part of a round that handles a back reference, from its length symbol on. -/
def backrefRound (distDecoder : HuffmanDecoder) (inflate : Inflate) (litlen numBitsUsed : Nat) :
    Option Round := do
  let ib := inflate.inputBuffer
  let totalBitsUsed := numBitsUsed
  let (baseLength, extraBits) := litlenTbl.getD (litlen - 257) (0, 0)
  -- without extra bits the masked value and the shift are zero, as if they were left out
  let length := baseLength + (ib.bits &&& (2 ^ extraBits - 1))
  let ib := { ib with bits := ib.bits >>> extraBits }
  let totalBitsUsed := totalBitsUsed + extraBits
  let (distSymbol, numBitsUsed) ← huffmanDecode ib.bits distDecoder numBitsUsed
  let ib := { ib with bits := ib.bits >>> numBitsUsed }
  let totalBitsUsed := totalBitsUsed + numBitsUsed
  if distSymbol < 0 ∨ distSymbol > 29 then
    return .done ({ inflate with inputBuffer := ib }.fail .inputError)
  let (baseDist, extraBits) := distTbl.getD distSymbol.toNat (0, 0)
  let dist := baseDist + (ib.bits &&& (2 ^ extraBits - 1))
  let ib := { ib with bits := ib.bits >>> extraBits }
  let totalBitsUsed := totalBitsUsed + extraBits
  match advanceNumBits ib (totalBitsUsed % 2 ^ 32) with
  | (false, ib) => return .done ({ inflate with inputBuffer := ib }.fail .needInput)
  | (true, ib) =>
    let inflate := { inflate with inputBuffer := ib }
    if dist > inflate.outputBuffer.length then return .done (inflate.fail .inputError)
    match outputBackref inflate.outputBuffer dist length with
    | none => return .done (inflate.fail .outputFull)
    | some ob => return .next { inflate with outputBuffer := ob } numBitsUsed

/-- One round of the loop of `processLiteralBackrefBlock`. -/
def literalBackrefRound (mem : Mem) (litlenDecoder distDecoder : HuffmanDecoder)
    (inflate : Inflate) (numBitsUsed : Nat) : Option Round := do
  let ib := getNextBits mem inflate.inputBuffer
  let (litlen, numBitsUsed) ← huffmanDecode ib.bits litlenDecoder numBitsUsed
  let ib := { ib with bits := ib.bits >>> numBitsUsed }
  let inflate := { inflate with inputBuffer := ib }
  if litlen < 0 ∨ litlen > 285 then
    return .done (inflate.fail .inputError)
  else if litlen ≤ 255 then
    match advanceNumBits ib (numBitsUsed % 2 ^ 32) with
    | (false, ib) => return .done ({ inflate with inputBuffer := ib }.fail .needInput)
    | (true, ib) =>
      let inflate := { inflate with inputBuffer := ib }
      let ob := inflate.outputBuffer
      if ob.length = INFLATE_OUTPUT_LENGTH then return .done (inflate.fail .outputFull)
      let buffer := Function.update ob.buffer ob.length (UInt8.ofNat litlen.toNat)
      return .next { inflate with outputBuffer := ⟨buffer, ob.length + 1⟩ } numBitsUsed
  else if litlen = 256 then
    match advanceNumBits ib (numBitsUsed % 2 ^ 32) with
    | (false, ib) => return .done ({ inflate with inputBuffer := ib }.fail .needInput)
    | (true, ib) => return .done (true, { inflate with inputBuffer := ib, status := .success })
  else backrefRound distDecoder inflate litlen.toNat numBitsUsed

/-- The loop of `processLiteralBackrefBlock`. -/
def literalBackrefLoop (mem : Mem) (litlenDecoder distDecoder : HuffmanDecoder) :
    Nat → Inflate → Nat → Option (Bool × Inflate)
  | 0, _, _ => none
  | fuel + 1, inflate, numBitsUsed => do
    match ← literalBackrefRound mem litlenDecoder distDecoder inflate numBitsUsed with
    | .next inflate numBitsUsed =>
      literalBackrefLoop mem litlenDecoder distDecoder fuel inflate numBitsUsed
    | .done result => return result

/-- `processLiteralBackrefBlock`. -/
def processLiteralBackrefBlock (mem : Mem) (garbage : Nat → Nat) (inflate : Inflate)
    (litlenDecoder distDecoder : HuffmanDecoder) : Option (Bool × Inflate) :=
  literalBackrefLoop mem litlenDecoder distDecoder (inflate.inputBuffer.totalNumBits + 1) inflate
    (garbage inflate.inputBuffer.bitPos)

/-! ## The codes of a block -/

/-- Read the 3-bit lengths of the code length code into their places; `none` when
the input ends. The places that get no length keep their zero. -/
def readCodelenLengths (mem : Mem) :
    List Nat → List Nat → InputBuffer → InputBuffer × Option (List Nat)
  | [], lengths, ib => (ib, some lengths)
  | place :: places, lengths, ib =>
    match useNumBits mem ib 3 with
    | (false, ib) => (ib, none)
    | (true, ib) =>
      readCodelenLengths mem places (lengths.set place (ib.bits &&& 0x07))
        { ib with bits := ib.bits >>> 3 }

/-- `codeLengthArray[i++] = length`. -/
def pushLength (lengths : List Nat) (length : Nat) : Option (List Nat) :=
  if lengths.length < 320 then some (lengths ++ [length]) else none

/-- The copying loop: the previous length, `j` times. -/
def copyPrevious : Nat → List Nat → Option (List Nat)
  | 0, lengths => some lengths
  | j + 1, lengths => do
    let previous ← lengths.getLast?
    copyPrevious j (← pushLength lengths previous)

/-- The zero-filling loops: zero, `j` times. -/
def pushZeros : Nat → List Nat → Option (List Nat)
  | 0, lengths => some lengths
  | j + 1, lengths => do pushZeros j (← pushLength lengths 0)

/-- The result of reading code lengths: them, or the status to fail with. -/
abbrev Lengths := Except InflationStatus (List Nat)

/-- The loop that reads the code lengths until there are `n` of them. -/
def readLengths (mem : Mem) (codelenDecoder : HuffmanDecoder) (n : Nat) :
    Nat → List Nat → InputBuffer → Nat → Option (InputBuffer × Lengths)
  | 0, _, _, _ => none
  | fuel + 1, lengths, ib, numBitsUsed =>
    if lengths.length < n then do
      let ib := getNextBits mem ib
      let (symbol, numBitsUsed) ← huffmanDecode ib.bits codelenDecoder numBitsUsed
      let ib := { ib with bits := ib.bits >>> numBitsUsed }
      match advanceNumBits ib (numBitsUsed % 2 ^ 32) with
      | (false, ib) => return (ib, .error .needInput)
      | (true, ib) =>
        if 0 ≤ symbol ∧ symbol ≤ 15 then
          let lengths ← pushLength lengths symbol.toNat
          readLengths mem codelenDecoder n fuel lengths ib numBitsUsed
        else if symbol = 16 then
          match advanceNumBits ib 2 with
          | (false, ib) => return (ib, .error .needInput)
          | (true, ib) =>
            let lengths ← copyPrevious ((ib.bits &&& 0x03) + 3) lengths
            readLengths mem codelenDecoder n fuel lengths ib numBitsUsed
        else if symbol = 17 then
          match advanceNumBits ib 3 with
          | (false, ib) => return (ib, .error .needInput)
          | (true, ib) =>
            let lengths ← pushZeros ((ib.bits &&& 0x07) + 3) lengths
            readLengths mem codelenDecoder n fuel lengths ib numBitsUsed
        else if symbol = 18 then
          match advanceNumBits ib 7 with
          | (false, ib) => return (ib, .error .needInput)
          | (true, ib) =>
            let lengths ← pushZeros ((ib.bits &&& 0x7F) + 11) lengths
            readLengths mem codelenDecoder n fuel lengths ib numBitsUsed
        else return (ib, .error .inputError)
    else return (ib, .ok lengths)

/-- `initDynamicDecoder`: the two decoders, or `false` with a status. -/
def initDynamicDecoder (mem : Mem) (garbage : Nat → Nat) (inflate : Inflate) :
    Option ((Bool × Inflate) ⊕ (Inflate × HuffmanDecoder × HuffmanDecoder)) := do
  let numBitsUsed := garbage inflate.inputBuffer.bitPos
  match useNumBits mem inflate.inputBuffer 14 with
  | (false, ib) => return .inl ({ inflate with inputBuffer := ib }.fail .needInput)
  | (true, ib) =>
    let numLitlenLens := (ib.bits &&& 0x1F) + 257
    let bits := ib.bits >>> 5
    let numDistLens := (bits &&& 0x1F) + 1
    let bits := bits >>> 5
    let numCodelenLens := (bits &&& 0x0F) + 4
    let ib := { ib with bits := bits >>> 4 }
    -- five and four bits: the checks against 288, 32 and 19 cannot fail
    match readCodelenLengths mem (codelenLengthsOrder.take numCodelenLens)
        (List.replicate 19 0) ib with
    | (ib, none) => return .inl ({ inflate with inputBuffer := ib }.fail .needInput)
    | (ib, some codelenLengths) =>
      let n := numLitlenLens + numDistLens
      match ← readLengths mem (initHuffmanDecoder codelenLengths) n (n + 1) [] ib numBitsUsed with
      | (ib, .error status) => return .inl ({ inflate with inputBuffer := ib }.fail status)
      | (ib, .ok lengths) =>
        return .inr ({ inflate with inputBuffer := ib },
          initHuffmanDecoder (lengths.take numLitlenLens),
          initHuffmanDecoder ((lengths.drop numLitlenLens).take numDistLens))

/-! ## Blocks -/

/-- `processDynamicDeflateBlock`. -/
def processDynamicDeflateBlock (mem : Mem) (garbage : Nat → Nat) (inflate : Inflate) :
    Option (Bool × Inflate) := do
  match ← initDynamicDecoder mem garbage inflate with
  | .inl result => return result
  | .inr (inflate, litlenDecoder, distDecoder) =>
    processLiteralBackrefBlock mem garbage inflate litlenDecoder distDecoder

/-- The loop of `inflate`. -/
def inflateLoop (mem : Mem) (garbage : Nat → Nat) : Nat → Inflate → Option (Bool × Inflate)
  | 0, _ => none
  | fuel + 1, inflate => do
    match useNumBits mem inflate.inputBuffer 3 with
    | (false, ib) => return { inflate with inputBuffer := ib }.fail .inputError
    | (true, ib) =>
      let isFinalBlock := ib.bits &&& 0x01
      let blockType := ib.bits &&& 0x06
      let inflate := { inflate with inputBuffer := { ib with bits := ib.bits >>> 3 } }
      -- stored blocks and blocks with fixed codes are not decompressed
      if blockType = 6 then return inflate.fail .inputError
      let (okStatus, inflate) ←
        if blockType = 4 then processDynamicDeflateBlock mem garbage inflate
        else some (true, inflate)
      if isFinalBlock = 0 ∧ okStatus then inflateLoop mem garbage fuel inflate
      else if okStatus then return (true, { inflate with status := .success })
      else return (false, inflate)

/-- `d592eb82_inflate`. -/
def inflate (mem : Mem) (garbage : Nat → Nat) (inflate : Inflate) : Option (Bool × Inflate) :=
  inflateLoop mem garbage (inflate.inputBuffer.totalNumBits + 1) inflate

end DevopsBroker.Compress
