import DevopsBroker.Compress.Bits

/-!
# `compress/huffman.c`: the Huffman decoder

`initHuffmanDecoder` builds two decoders for one canonical code: a table indexed
by the next eight bits for codewords of at most eight bits, and for the longer
ones a sentinel per length, above all codewords up to that length when these are
put left-justified into 15 bits. `huffmanDecode` tries the table first.

Mirroring notes vs the C source:
- `count` has eight bits per length, `next_code`, `sym_idx`, `sentinel_bits` and
  `offset_first_sym_idx` sixteen; all arithmetic wraps accordingly.
- `numSymbols` is stored before the decoder is cleared, so that it stays zero.
- The symbol is read from `syms` at a 16-bit index: `none` stands for a read outside
  of the array.
- `huffmanDecode` takes the value that `*numBitsUsed` has before the call, and
  returns the one it has afterwards next to its result.
-/

namespace DevopsBroker.Compress

/-- `MAX_HUFFMAN_BITS`. -/
abbrev MAX_HUFFMAN_BITS : Nat := 15

/-- `MAX_HUFFMAN_SYMBOLS`. -/
abbrev MAX_HUFFMAN_SYMBOLS : Nat := 288

/-- `HUFFMAN_LOOKUP_TABLE_BITS`. -/
abbrev HUFFMAN_LOOKUP_TABLE_BITS : Nat := 8

/-- An entry of the lookup table; a `len` of zero means no symbol. -/
structure TableEntry where
  sym : Nat
  len : Nat
deriving DecidableEq

/-- `struct HuffmanDecoder`. -/
structure HuffmanDecoder where
  table : Array TableEntry
  sentinelBits : Array Nat
  offsetFirstSymIdx : Array Nat
  syms : Array Nat
  numSymbols : Nat

/-! ## Building the decoder -/

/-- Count the number of codes for each code length. -/
def countLengths (lengthArray : List Nat) : Array Nat :=
  lengthArray.foldl (fun count l => count.setIfInBounds l ((count.getD l 0 + 1) % 2 ^ 8))
    (Array.replicate 16 0)

/-- The arrays that are filled length by length. -/
structure LengthTables where
  nextCode : Array Nat
  symIdx : Array Nat
  sentinelBits : Array Nat
  offsetFirstSymIdx : Array Nat

/-- The loop over the code lengths `l, l + 1, …`, `n` of them. -/
def lengthLoop (count : Array Nat) : Nat → Nat → LengthTables → LengthTables
  | 0, _, t => t
  | n + 1, l, t =>
    let i := l - 1
    let nextCode := (t.nextCode.getD i 0 + count.getD i 0) * 2 % 2 ^ 16
    -- the first bits, of fifteen, that are beyond the codewords of this length
    let s := (nextCode + count.getD l 0) * 2 ^ (MAX_HUFFMAN_BITS - l) % 2 ^ 32
    let symIdx := (t.symIdx.getD i 0 + count.getD i 0) % 2 ^ 16
    lengthLoop count n (l + 1)
      { nextCode := t.nextCode.setIfInBounds l nextCode
        symIdx := t.symIdx.setIfInBounds l symIdx
        sentinelBits := t.sentinelBits.setIfInBounds l (s % 2 ^ 16)
        offsetFirstSymIdx :=
          t.offsetFirstSymIdx.setIfInBounds l ((symIdx + 2 ^ 16 - nextCode) % 2 ^ 16) }

/-- The loop of `table_insert` over the paddings `padding, padding + 1, …`, `n` of
them; `codeword` is LSB-first already. -/
def insertPaddings (symbol length codeword : Nat) :
    Nat → Nat → Array TableEntry → Array TableEntry
  | 0, _, table => table
  | n + 1, padding, table =>
    let index := codeword ||| padding <<< length
    insertPaddings symbol length codeword n (padding + 1)
      (table.setIfInBounds index ⟨symbol % 2 ^ 9, length % 2 ^ 7⟩)

/-- `table_insert`: every index that starts with the codeword. -/
def tableInsert (table : Array TableEntry) (symbol length codeword : Nat) : Array TableEntry :=
  insertPaddings symbol length (reverse16 codeword length)
    (1 <<< (HUFFMAN_LOOKUP_TABLE_BITS - length)) 0 table

/-- The arrays that are filled symbol by symbol. -/
structure SymbolTables where
  nextCode : Array Nat
  symIdx : Array Nat
  syms : Array Nat
  table : Array TableEntry

/-- The body of the loop over the symbols, for symbol `i` with code length `l`. -/
def symbolStep (t : SymbolTables) (i l : Nat) : SymbolTables :=
  if l = 0 then t
  else
    let index := t.symIdx.getD l 0
    let t := { t with
      syms := t.syms.setIfInBounds index i
      symIdx := t.symIdx.setIfInBounds l ((index + 1) % 2 ^ 16) }
    -- only a short codeword goes into the lookup table, and moves `nextCode`
    if l ≤ HUFFMAN_LOOKUP_TABLE_BITS then
      let codeword := t.nextCode.getD l 0
      { t with
        table := tableInsert t.table i l codeword
        nextCode := t.nextCode.setIfInBounds l ((codeword + 1) % 2 ^ 16) }
    else t

/-- The loop over the symbols `i, i + 1, …` with the given code lengths. -/
def symbolLoop : List Nat → Nat → SymbolTables → SymbolTables
  | [], _, t => t
  | l :: ls, i, t => symbolLoop ls (i + 1) (symbolStep t i l)

/-- `f173ab5a_initHuffmanDecoder`. -/
def initHuffmanDecoder (lengthArray : List Nat) : HuffmanDecoder :=
  let count := (countLengths lengthArray).setIfInBounds 0 0
  let zeros := Array.replicate 16 0
  let lt := lengthLoop count MAX_HUFFMAN_BITS 1 ⟨zeros, zeros, zeros, zeros⟩
  let st := symbolLoop lengthArray 0
    { nextCode := lt.nextCode
      symIdx := lt.symIdx
      syms := Array.replicate MAX_HUFFMAN_SYMBOLS 0
      table := Array.replicate (1 <<< HUFFMAN_LOOKUP_TABLE_BITS) ⟨0, 0⟩ }
  { table := st.table
    sentinelBits := lt.sentinelBits
    offsetFirstSymIdx := lt.offsetFirstSymIdx
    syms := st.syms
    numSymbols := 0 }

/-! ## Decoding -/

/-- The loop of `huffmanDecode` over the lengths `l, l + 1, …`, `n` of them; `bits`
is MSB-first. -/
def searchLengths (decoder : HuffmanDecoder) (bits numBitsUsed : Nat) :
    Nat → Nat → Option (Int × Nat)
  | 0, _ => some (-1, numBitsUsed)
  | n + 1, l =>
    if bits < decoder.sentinelBits.getD l 0 then
      let symbolIndex : Nat :=
        (decoder.offsetFirstSymIdx.getD l 0 + bits >>> (MAX_HUFFMAN_BITS - l)) % 2 ^ 16
      decoder.syms[symbolIndex]?.map fun sym => (Int.ofNat sym, l)
    else searchLengths decoder bits numBitsUsed n (l + 1)

/-- `f173ab5a_huffmanDecode`: the symbol, or `-1`, and the new `*numBitsUsed`. -/
def huffmanDecode (bits : Nat) (decoder : HuffmanDecoder) (numBitsUsed : Nat) :
    Option (Int × Nat) :=
  let bits := bits % 2 ^ 16
  let entry := decoder.table.getD (bits &&& 0xFF) ⟨0, 0⟩
  -- an entry of length zero belongs to no codeword of up to eight bits
  if entry.len ≠ 0 then some (Int.ofNat entry.sym, entry.len)
  else
    searchLengths decoder (reverse16 bits MAX_HUFFMAN_BITS) numBitsUsed
      (MAX_HUFFMAN_BITS - HUFFMAN_LOOKUP_TABLE_BITS) (HUFFMAN_LOOKUP_TABLE_BITS + 1)

end DevopsBroker.Compress
