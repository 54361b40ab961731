import DevopsBroker.Lib.Rounds
import DevopsBroker.Compress.HuffmanAccess
import DevopsBroker.Compress.Inflate
import DevopsBroker.Compress.InputBufferSpec

/-!
# The code lengths in memory

`readLengths` stops where the source reads or writes outside of `codeLengthArray`. Here the array
lies in memory, and such an access finds what lies there. Every access goes through `load` and
`store`, which log its index.

- `lengthRound_progresses`: every round of the loop returns or consumes a bit;
- **`initDynamicDecoderIn_eq`**: where `initDynamicDecoder` has a result, this is the same one.

Mirroring notes vs the C source:
- `i` is a `uint32_t`: the index before the first one is `2 ^ 32 - 1`.
- Around `codeLengthArray` lie the other variables of the function, and what it returns to. Accesses
  there are undefined behaviour; here they are followed to see which indices come up, and what they
  change is not. That the call then comes back says nothing: `readLengths` has `none` there.
- Code lengths of more than 15, which only such memory can hold, are left out by
  `initHuffmanDecoder`.
-/

namespace DevopsBroker.Compress

open DevopsBroker.Lib DevopsBroker.Io DevopsBroker.Lang

/-- What the code does not say: what a local variable, or the memory of an array, holds at a
position in the stream. -/
structure Surroundings where
  numBitsUsed : Nat → Nat
  codeLengthArray : Nat → Nat → Nat

/-! ## The array -/

/-- `codeLengthArray` with the memory around it, by index, and the indices of the accesses. -/
structure CodeLengthArray where
  cells : Nat → Nat
  accesses : List Nat

def CodeLengthArray.load (array : CodeLengthArray) (k : Nat) : Nat × CodeLengthArray :=
  (array.cells k, { array with accesses := array.accesses ++ [k] })

def CodeLengthArray.store (array : CodeLengthArray) (k length : Nat) : CodeLengthArray :=
  { cells := Function.update array.cells k length
    accesses := array.accesses ++ [k] }

/-- The copying loop: `codeLengthArray[i] = codeLengthArray[i - 1]`, `j` times. -/
def copyLengths : Nat → Nat → CodeLengthArray → CodeLengthArray
  | 0, _, array => array
  | j + 1, i, array =>
    let (previous, array) := array.load ((i + 2 ^ 32 - 1) % 2 ^ 32)
    copyLengths j (i + 1) (array.store i previous)

/-- The zero-filling loops. -/
def zeroLengths : Nat → Nat → CodeLengthArray → CodeLengthArray
  | 0, _, array => array
  | j + 1, i, array => zeroLengths j (i + 1) (array.store i 0)

/-- A code length symbol, with how often it repeats. -/
inductive LengthSymbol where
  | literal (length : Nat)
  | copy (j : Nat)
  | zeros (j : Nat)
deriving DecidableEq

/-- How many lengths it stands for. -/
def LengthSymbol.run : LengthSymbol → Nat
  | .literal _ => 1
  | .copy j => j
  | .zeros j => j

/-- Store these from index `i` on. -/
def LengthSymbol.store (i : Nat) (array : CodeLengthArray) : LengthSymbol → CodeLengthArray
  | .literal length => array.store i length
  | .copy j => copyLengths j i array
  | .zeros j => zeroLengths j i array

/-! ## The loop -/

/-- The `numBits` bits behind a repeat symbol: how many lengths above `minimum`. -/
def readRepeat (ib : InputBuffer) (numBits mask minimum : Nat) :
    InputBuffer × Except InflationStatus Nat :=
  match advanceNumBits ib numBits with
  | (false, ib) => (ib, .error .needInput)
  | (true, ib) => (ib, .ok ((ib.bits &&& mask) + minimum))

/-- One symbol of the input, or the status to fail with, and the new `numBitsUsed`. -/
def readLengthSymbol (mem : Mem) (codelenDecoder : HuffmanDecoder) (ib : InputBuffer)
    (numBitsUsed : Nat) : Option ((InputBuffer × Except InflationStatus LengthSymbol) × Nat) := do
  let ib := getNextBits mem ib
  let (symbol, numBitsUsed) ← huffmanDecode ib.bits codelenDecoder numBitsUsed
  let ib := { ib with bits := ib.bits >>> numBitsUsed }
  match advanceNumBits ib (numBitsUsed % 2 ^ 32) with
  | (false, ib) => return ((ib, .error .needInput), numBitsUsed)
  | (true, ib) =>
    if 0 ≤ symbol ∧ symbol ≤ 15 then return ((ib, .ok (.literal symbol.toNat)), numBitsUsed)
    else if symbol = 16 then
      return ((readRepeat ib 2 0x03 3).map id (·.map .copy), numBitsUsed)
    else if symbol = 17 then
      return ((readRepeat ib 3 0x07 3).map id (·.map .zeros), numBitsUsed)
    else if symbol = 18 then
      return ((readRepeat ib 7 0x7F 11).map id (·.map .zeros), numBitsUsed)
    else return ((ib, .error .inputError), numBitsUsed)

/-- The variables of the loop. -/
structure LengthState where
  array : CodeLengthArray
  i : Nat
  inputBuffer : InputBuffer
  numBitsUsed : Nat

/-- One round: until there are `n` lengths, or with the status to fail with. -/
def lengthRound (mem : Mem) (codelenDecoder : HuffmanDecoder) (n : Nat) (st : LengthState) :
    Option (Turn LengthState (LengthState × Option InflationStatus)) :=
  if st.i < n then do
    let ((ib, read), numBitsUsed) ←
      readLengthSymbol mem codelenDecoder st.inputBuffer st.numBitsUsed
    match read with
    | .error status =>
      return .done ({ st with inputBuffer := ib, numBitsUsed := numBitsUsed }, some status)
    | .ok symbol =>
      return .next
        { array := symbol.store st.i st.array
          i := st.i + symbol.run
          inputBuffer := ib
          numBitsUsed := numBitsUsed }
  else return .done (st, none)

/-- What stands ahead of the code lengths. -/
structure LengthsHeader where
  numLitlenLens : Nat
  numDistLens : Nat
  codelenLengths : List Nat
deriving DecidableEq

/-- How many code lengths there are. -/
def LengthsHeader.numLens (header : LengthsHeader) : Nat :=
  header.numLitlenLens + header.numDistLens

/-- Read it; `none` when the input ends. -/
def readLengthsHeader (mem : Mem) (ib : InputBuffer) : InputBuffer × Option LengthsHeader :=
  match useNumBits mem ib 14 with
  | (false, ib) => (ib, none)
  | (true, ib) =>
    let numLitlenLens := (ib.bits &&& 0x1F) + 257
    let bits := ib.bits >>> 5
    let numDistLens := (bits &&& 0x1F) + 1
    let bits := bits >>> 5
    let numCodelenLens := (bits &&& 0x0F) + 4
    let ib := { ib with bits := bits >>> 4 }
    -- the checks against 288, 32 and 19 cannot fail, as for `initDynamicDecoder`
    (readCodelenLengths mem (codelenLengthsOrder.take numCodelenLens)
      (List.replicate 19 0) ib).map id (·.map (⟨numLitlenLens, numDistLens, ·⟩))

/-- The variables at the start of the loop, for a call at position `bitPos`. -/
def startLengths (around : Surroundings) (bitPos : Nat) (ib : InputBuffer) : LengthState :=
  { array := ⟨around.codeLengthArray bitPos, []⟩
    i := 0
    inputBuffer := ib
    numBitsUsed := around.numBitsUsed bitPos }

/-- The loop. -/
def codeLengthLoop (mem : Mem) (around : Surroundings) (bitPos : Nat) (header : LengthsHeader)
    (ib : InputBuffer) : Option (LengthState × Option InflationStatus) :=
  rounds (lengthRound mem (initHuffmanDecoder header.codelenLengths) header.numLens)
    (ib.totalNumBits + 1) (startLengths around bitPos ib)

/-- `initDynamicDecoder`, with the array in memory. -/
def initDynamicDecoderIn (mem : Mem) (around : Surroundings) (inflate : Inflate) :
    Option ((Bool × Inflate) ⊕ (Inflate × HuffmanDecoder × HuffmanDecoder)) :=
  match readLengthsHeader mem inflate.inputBuffer with
  | (ib, none) => some (.inl ({ inflate with inputBuffer := ib }.fail .needInput))
  | (ib, some header) => do
    match ← codeLengthLoop mem around inflate.inputBuffer.bitPos header ib with
    | (st, some status) => return .inl ({ inflate with inputBuffer := st.inputBuffer }.fail status)
    | (st, none) =>
      let lengths := fun k => st.array.cells k
      return .inr ({ inflate with inputBuffer := st.inputBuffer },
        initHuffmanDecoder ((List.range header.numLitlenLens).map lengths),
        initHuffmanDecoder ((List.range header.numDistLens).map fun k =>
          lengths (header.numLitlenLens + k)))

/-! ## What a symbol is read from -/

/-- Every look-up has a result, and no length in the table is out of range. -/
structure HuffmanDecoder.Answers (decoder : HuffmanDecoder) : Prop where
  isSome : ∀ bits numBitsUsed, (huffmanDecode bits decoder numBitsUsed).isSome
  small : SmallEntries decoder.table

theorem initHuffmanDecoder_answers {lengthArray : List Nat}
    (hlength : lengthArray.length ≤ MAX_HUFFMAN_SYMBOLS)
    (hle : ∀ l ∈ lengthArray, l ≤ MAX_HUFFMAN_BITS) : (initHuffmanDecoder lengthArray).Answers :=
  ⟨huffmanDecode_isSome hlength hle, initHuffmanDecoder_small lengthArray⟩

/-- How a read of a symbol ends: with one that consumed some bits, or without. -/
structure SymbolRead (ib : InputBuffer) (read : InputBuffer × Except InflationStatus LengthSymbol) :
    Prop where
  advanced : ib.Advanced 0 read.1
  further : ∀ symbol, read.2 = .ok symbol → ib.Advanced 1 read.1

/-- The bits behind a repeat symbol that consumed some itself. -/
theorem readRepeat_read {ib ib' : InputBuffer} (h : ib.Advanced 1 ib') (hwithin : ib.Within)
    {numBits mask minimum : Nat} (hnum : numBits < 2 ^ 32) {symbol : Nat → LengthSymbol} :
    SymbolRead ib ((readRepeat ib' numBits mask minimum).map id (·.map symbol)) := by
  have hwithin' := h.within hwithin
  unfold readRepeat
  rcases hadvance : advanceNumBits ib' numBits with ⟨ok, ib''⟩
  have hadvanced := advanceNumBits_advanced hwithin' hnum hadvance
  cases ok with
  | false => exact ⟨(h.trans hadvanced).weaken (Nat.zero_le _), fun _ hok => nomatch hok⟩
  | true =>
    exact ⟨(h.trans hadvanced).weaken (Nat.zero_le _),
      fun _ _ => (h.trans hadvanced).weaken (Nat.le_add_right _ _)⟩

/-- **A symbol that is read consumes at least one bit.** -/
theorem readLengthSymbol_reads (mem : Mem) {decoder : HuffmanDecoder} (h : decoder.Answers)
    {ib : InputBuffer} (hwithin : ib.Within) (numBitsUsed : Nat) :
    ∃ read numBitsUsed', readLengthSymbol mem decoder ib numBitsUsed =
      some (read, numBitsUsed') ∧ SymbolRead ib read := by
  obtain ⟨⟨symbol, used⟩, hdecode⟩ :=
    Option.isSome_iff_exists.mp (h.isSome (getNextBits mem ib).bits numBitsUsed)
  have hbits : ib.Advanced 0
      { getNextBits mem ib with bits := (getNextBits mem ib).bits >>> used } :=
    hwithin.withBits _
  unfold readLengthSymbol
  dsimp only [bind]
  rw [hdecode]
  dsimp only [Option.bind]
  generalize hadvance : advanceNumBits _ _ = advanced
  obtain ⟨ok, ib'⟩ := advanced
  obtain ⟨hzero, hsome⟩ := hbits.consume hwithin hadvance
  have hfailed (status : InflationStatus) : SymbolRead ib (ib', .error status) :=
    ⟨hzero, fun _ hok => nomatch hok⟩
  cases ok with
  | false => exact ⟨_, _, rfl, hfailed .needInput⟩
  | true =>
    dsimp only
    -- a symbol was found, and so some bits were used
    have hone : symbol ≠ -1 → ib.Advanced 1 ib' := by
      intro hsymbol
      obtain ⟨hpos, hlt⟩ := (huffmanDecode_uses h.small hdecode).resolve_left hsymbol
      exact hsome rfl hpos (by omega)
    split
    next hliteral =>
      exact ⟨_, _, rfl, hzero, fun _ _ => hone (by omega)⟩
    next _ =>
      split
      next hcopy =>
        exact ⟨_, _, rfl, readRepeat_read (hone (by omega)) hwithin (by omega)⟩
      next _ =>
        split
        next hzeros =>
          exact ⟨_, _, rfl, readRepeat_read (hone (by omega)) hwithin (by omega)⟩
        next _ =>
          split
          next hzeros =>
            exact ⟨_, _, rfl, readRepeat_read (hone (by omega)) hwithin (by omega)⟩
          next _ => exact ⟨_, _, rfl, hfailed .inputError⟩

/-- **Every round of the loop returns or consumes a bit.** -/
theorem lengthRound_progresses (mem : Mem) {decoder : HuffmanDecoder} (h : decoder.Answers)
    (n : Nat) :
    Progresses (lengthRound mem decoder n) LengthState.inputBuffer fun r => r.1.inputBuffer := by
  intro st hwithin
  unfold ProgressesAt lengthRound
  split
  next _ =>
    obtain ⟨⟨ib, read⟩, used, hread, hspec⟩ :=
      readLengthSymbol_reads mem h hwithin st.numBitsUsed
    rw [hread]
    cases read with
    | error status => exact ⟨_, rfl, hspec.advanced⟩
    | ok symbol => exact ⟨_, rfl, hspec.further symbol rfl⟩
  next _ => exact ⟨_, rfl, hwithin.advanced⟩

/-! ## The call -/

theorem readCodelenLengths_reads {mem : Mem} (places : List Nat) :
    ∀ {lengths : List Nat} {ib ib' : InputBuffer} {read : Option (List Nat)}, ib.Within →
      readCodelenLengths mem places lengths ib = (ib', read) →
        ib.Advanced 0 ib' ∧ ∀ lengths', read = some lengths' → lengths'.length = lengths.length ∧
          ((∀ l ∈ lengths, l ≤ 7) → ∀ l ∈ lengths', l ≤ 7) := by
  induction places with
  | nil =>
    intro lengths ib ib' read hwithin h
    obtain ⟨rfl, rfl⟩ := Prod.mk.inj h
    refine ⟨hwithin.advanced, ?_⟩
    intro lengths' hsame
    obtain rfl := Option.some.inj hsame
    exact ⟨rfl, id⟩
  | cons place places ih =>
    intro lengths ib ib' read hwithin h
    unfold readCodelenLengths at h
    rcases huse : useNumBits mem ib 3 with ⟨ok, ib₁⟩
    have hadvanced := useNumBits_advanced hwithin (by omega) huse
    rw [huse] at h
    cases ok with
    | false =>
      obtain ⟨rfl, rfl⟩ := Prod.mk.inj h
      exact ⟨hadvanced, fun _ hsame => nomatch hsame⟩
    | true =>
      have hbits := hadvanced.trans ((hadvanced.within hwithin).withBits (ib₁.bits >>> 3))
      obtain ⟨hrest, hlengths⟩ := ih (hbits.within hwithin) h
      refine ⟨(hbits.trans hrest).weaken (Nat.zero_le _), ?_⟩
      intro lengths' hsame
      obtain ⟨hlength, hsmall⟩ := hlengths lengths' hsame
      refine ⟨hlength.trans List.length_set, ?_⟩
      intro hall
      apply hsmall
      intro l hl
      rcases List.mem_or_eq_of_mem_set hl with hl | rfl
      · exact hall l hl
      · exact Nat.and_le_right

/-- What `readLengthsHeader` reads. -/
structure LengthsHeader.Valid (header : LengthsHeader) : Prop where
  numLens_pos : 0 < header.numLens
  numLens_le : header.numLens ≤ 320
  length_eq : header.codelenLengths.length = 19
  lengths_le : ∀ l ∈ header.codelenLengths, l ≤ 7
  numLitlenLens_le : header.numLitlenLens ≤ 288
  numDistLens_le : header.numDistLens ≤ 32

theorem LengthsHeader.Valid.answers {header : LengthsHeader} (h : header.Valid) :
    (initHuffmanDecoder header.codelenLengths).Answers := by
  apply initHuffmanDecoder_answers
  · rw [h.length_eq]
    simp only [MAX_HUFFMAN_SYMBOLS]
    omega
  · intro l hl
    exact Nat.le_trans (h.lengths_le l hl) (by simp only [MAX_HUFFMAN_BITS]; omega)

theorem readLengthsHeader_reads {mem : Mem} {ib ib' : InputBuffer} {read : Option LengthsHeader}
    (hwithin : ib.Within) (h : readLengthsHeader mem ib = (ib', read)) :
    ib.Advanced 0 ib' ∧ ∀ header, read = some header → header.Valid := by
  unfold readLengthsHeader at h
  rcases huse : useNumBits mem ib 14 with ⟨ok, ib₁⟩
  have hadvanced := useNumBits_advanced hwithin (by omega) huse
  rw [huse] at h
  cases ok with
  | false =>
    obtain ⟨rfl, rfl⟩ := Prod.mk.inj h
    exact ⟨hadvanced, fun _ hsame => nomatch hsame⟩
  | true =>
    dsimp only at h
    have hbits := hadvanced.trans ((hadvanced.within hwithin).withBits (ib₁.bits >>> 5 >>> 5 >>> 4))
    rcases hread : readCodelenLengths mem
      (codelenLengthsOrder.take ((ib₁.bits >>> 5 >>> 5 &&& 0x0F) + 4)) (List.replicate 19 0)
      { ib₁ with bits := ib₁.bits >>> 5 >>> 5 >>> 4 } with ⟨ib₂, lengths⟩
    obtain ⟨hrest, hlengths⟩ := readCodelenLengths_reads _ (hbits.within hwithin) hread
    rw [hread] at h
    obtain ⟨rfl, rfl⟩ := Prod.mk.inj h
    refine ⟨(hbits.trans hrest).weaken (Nat.zero_le _), ?_⟩
    intro header hsame
    cases lengths with
    | none => cases hsame
    | some lengths =>
      obtain rfl := Option.some.inj hsame
      obtain ⟨hlength, hsmall⟩ := hlengths lengths rfl
      have hlitlen : ib₁.bits &&& 0x1F ≤ 31 := Nat.and_le_right
      have hdist : ib₁.bits >>> 5 &&& 0x1F ≤ 31 := Nat.and_le_right
      refine ⟨?_, ?_, ?_, ?_, ?_, ?_⟩
      · show 0 < (ib₁.bits &&& 0x1F) + 257 + ((ib₁.bits >>> 5 &&& 0x1F) + 1)
        omega
      · show (ib₁.bits &&& 0x1F) + 257 + ((ib₁.bits >>> 5 &&& 0x1F) + 1) ≤ 320
        omega
      · exact hlength.trans List.length_replicate
      · apply hsmall
        intro l hl
        rw [List.eq_of_mem_replicate hl]
        exact Nat.zero_le _
      · show (ib₁.bits &&& 0x1F) + 257 ≤ 288
        omega
      · show (ib₁.bits >>> 5 &&& 0x1F) + 1 ≤ 32
        omega

theorem LengthsHeader.valid_of_read {mem : Mem} {ib : InputBuffer} {header : LengthsHeader}
    (hwithin : ib.Within) (h : (readLengthsHeader mem ib).2 = some header) : header.Valid :=
  (readLengthsHeader_reads hwithin (Prod.mk.eta (p := readLengthsHeader mem ib)).symm).2 header h

/-- The loop comes back. -/
theorem codeLengthLoop_comes_back (mem : Mem) (around : Surroundings) (bitPos : Nat)
    {header : LengthsHeader} (h : header.Valid) {ib : InputBuffer} (hwithin : ib.Within) :
    ∃ r, codeLengthLoop mem around bitPos header ib = some r ∧ ib.Advanced 0 r.1.inputBuffer :=
  (lengthRound_progresses mem h.answers header.numLens).comes_back
    (s := startLengths around bitPos ib) hwithin

/-! ## The same code lengths -/

/-- The array holds these lengths, from its start on. -/
def CodeLengthArray.Holds (array : CodeLengthArray) (lengths : List Nat) : Prop :=
  ∀ k length, lengths[k]? = some length → array.cells k = length

theorem CodeLengthArray.Holds.store {array : CodeLengthArray} {lengths : List Nat}
    (h : array.Holds lengths) (length : Nat) :
    (array.store lengths.length length).Holds (lengths ++ [length]) := by
  intro k l hk
  show Function.update array.cells lengths.length length k = l
  rcases Nat.lt_trichotomy k lengths.length with hlt | rfl | hgt
  · rw [Function.update_of_ne (by omega)]
    rw [List.getElem?_append_left hlt] at hk
    exact h k l hk
  · rw [Function.update_self]
    rw [List.getElem?_concat_length] at hk
    exact Option.some.inj hk
  · rw [List.getElem?_eq_none (by rw [List.length_append, List.length_singleton]; omega)] at hk
    cases hk

/-- The lengths of a symbol behind others; `none` outside of the 320 entries. -/
def LengthSymbol.push (lengths : List Nat) : LengthSymbol → Option (List Nat)
  | .literal length => pushLength lengths length
  | .copy j => copyPrevious j lengths
  | .zeros j => pushZeros j lengths

theorem pushLength_eq_some {lengths lengths' : List Nat} {length : Nat}
    (h : pushLength lengths length = some lengths') :
    lengths.length < 320 ∧ lengths' = lengths ++ [length] := by
  unfold pushLength at h
  split at h
  next hroom => exact ⟨hroom, (Option.some.inj h).symm⟩
  next _ => cases h

theorem copyLengths_holds (j : Nat) :
    ∀ {lengths lengths' : List Nat} {array : CodeLengthArray}, array.Holds lengths →
      copyPrevious j lengths = some lengths' →
        (copyLengths j lengths.length array).Holds lengths' ∧
          lengths'.length = lengths.length + j := by
  induction j with
  | zero =>
    intro lengths lengths' array h hrun
    obtain rfl := Option.some.inj hrun
    exact ⟨h, rfl⟩
  | succ j ih =>
    intro lengths lengths' array h hrun
    rw [copyPrevious] at hrun
    obtain ⟨previous, hlast, hrun⟩ := Option.bind_eq_some_iff.mp hrun
    obtain ⟨pushed, hpush, hrun⟩ := Option.bind_eq_some_iff.mp hrun
    obtain ⟨hroom, rfl⟩ := pushLength_eq_some hpush
    rw [List.getLast?_eq_getElem?] at hlast
    obtain ⟨hlt, _⟩ := List.getElem?_eq_some_iff.mp hlast
    have hindex : (lengths.length + 2 ^ 32 - 1) % 2 ^ 32 = lengths.length - 1 := by omega
    have hprevious : array.cells ((lengths.length + 2 ^ 32 - 1) % 2 ^ 32) = previous := by
      rw [hindex]
      exact h _ _ hlast
    have hloaded : (array.load ((lengths.length + 2 ^ 32 - 1) % 2 ^ 32)).2.Holds lengths := h
    obtain ⟨hholds, hlength⟩ := ih (hloaded.store previous) hrun
    rw [List.length_append, List.length_singleton] at hholds hlength
    refine ⟨?_, by omega⟩
    rw [copyLengths]
    show (copyLengths j _ (CodeLengthArray.store _ _ (array.cells _))).Holds lengths'
    rw [hprevious]
    exact hholds

theorem zeroLengths_holds (j : Nat) :
    ∀ {lengths lengths' : List Nat} {array : CodeLengthArray}, array.Holds lengths →
      pushZeros j lengths = some lengths' →
        (zeroLengths j lengths.length array).Holds lengths' ∧
          lengths'.length = lengths.length + j := by
  induction j with
  | zero =>
    intro lengths lengths' array h hrun
    obtain rfl := Option.some.inj hrun
    exact ⟨h, rfl⟩
  | succ j ih =>
    intro lengths lengths' array h hrun
    rw [pushZeros] at hrun
    obtain ⟨pushed, hpush, hrun⟩ := Option.bind_eq_some_iff.mp hrun
    obtain ⟨_, rfl⟩ := pushLength_eq_some hpush
    obtain ⟨hholds, hlength⟩ := ih (h.store 0) hrun
    rw [List.length_append, List.length_singleton] at hholds hlength
    exact ⟨hholds, by omega⟩

/-- Storing a symbol in memory, where there is room for it. -/
theorem LengthSymbol.store_holds {symbol : LengthSymbol} {lengths lengths' : List Nat}
    {array : CodeLengthArray} (h : array.Holds lengths)
    (hrun : symbol.push lengths = some lengths') :
    (symbol.store lengths.length array).Holds lengths' ∧
      lengths'.length = lengths.length + symbol.run := by
  cases symbol with
  | literal length =>
    obtain ⟨_, rfl⟩ := pushLength_eq_some hrun
    exact ⟨h.store length, List.length_append⟩
  | copy j => exact copyLengths_holds j h hrun
  | zeros j => exact zeroLengths_holds j h hrun

/-- A round of `readLengths`, in terms of symbols. -/
theorem readLengths_succ (mem : Mem) (codelenDecoder : HuffmanDecoder) (n fuel : Nat)
    (lengths : List Nat) (ib : InputBuffer) (numBitsUsed : Nat) :
    readLengths mem codelenDecoder n (fuel + 1) lengths ib numBitsUsed =
      if lengths.length < n then
        (readLengthSymbol mem codelenDecoder ib numBitsUsed).bind fun read =>
          match read.1.2 with
          | .error status => some (read.1.1, .error status)
          | .ok symbol => (symbol.push lengths).bind fun lengths =>
              readLengths mem codelenDecoder n fuel lengths read.1.1 read.2
      else some (ib, .ok lengths) := by
  rw [readLengths]
  split
  next _ =>
    unfold readLengthSymbol
    dsimp only [bind]
    rcases huffmanDecode (getNextBits mem ib).bits codelenDecoder numBitsUsed with _ | ⟨symbol, used⟩
    · rfl
    · dsimp only [Option.bind]
      generalize advanceNumBits _ (used % 2 ^ 32) = advanced
      obtain ⟨ok, ib'⟩ := advanced
      cases ok with
      | false => rfl
      | true =>
        dsimp only
        unfold readRepeat
        split
        next _ => rfl
        next _ =>
          split
          next _ =>
            rcases advanceNumBits ib' 2 with ⟨ok, ib''⟩
            cases ok with
            | false => rfl
            | true => rfl
          next _ =>
            split
            next _ =>
              rcases advanceNumBits ib' 3 with ⟨ok, ib''⟩
              cases ok with
              | false => rfl
              | true => rfl
            next _ =>
              split
              next _ =>
                rcases advanceNumBits ib' 7 with ⟨ok, ib''⟩
                cases ok with
                | false => rfl
                | true => rfl
              next _ => rfl
  next _ => rfl

/-- What the loop in memory has to end with. -/
def EndsAs (n : Nat) (read : Lengths) (st : LengthState) (status : Option InflationStatus) :
    Prop :=
  match read with
  | .error status' => status = some status'
  | .ok lengths => status = none ∧ st.array.Holds lengths ∧ n ≤ lengths.length

theorem rounds_of_readLengths {mem : Mem} {decoder : HuffmanDecoder} {n : Nat} (fuel : Nat) :
    ∀ {lengths : List Nat} {array : CodeLengthArray} {ib ib' : InputBuffer} {numBitsUsed : Nat}
      {read : Lengths}, array.Holds lengths →
      readLengths mem decoder n fuel lengths ib numBitsUsed = some (ib', read) →
        ∃ st status, rounds (lengthRound mem decoder n) fuel
            ⟨array, lengths.length, ib, numBitsUsed⟩ = some (st, status) ∧
          st.inputBuffer = ib' ∧ EndsAs n read st status := by
  induction fuel with
  | zero => exact fun _ hrun => nomatch hrun
  | succ fuel ih =>
    intro lengths array ib ib' numBitsUsed read h hrun
    rw [readLengths_succ] at hrun
    split at hrun
    next hi =>
      obtain ⟨⟨⟨ib₁, read₁⟩, used⟩, hread, hrun⟩ := Option.bind_eq_some_iff.mp hrun
      cases read₁ with
      | error status =>
        obtain ⟨rfl, rfl⟩ := Prod.mk.inj (Option.some.inj hrun)
        refine ⟨⟨array, lengths.length, ib₁, used⟩, some status, rounds_done ?_ fuel, rfl, rfl⟩
        rw [lengthRound, if_pos hi, hread]
        rfl
      | ok symbol =>
        obtain ⟨lengths', hpush, hrun⟩ := Option.bind_eq_some_iff.mp hrun
        obtain ⟨hholds, hlength⟩ := symbol.store_holds h hpush
        have hround : lengthRound mem decoder n ⟨array, lengths.length, ib, numBitsUsed⟩ =
            some (.next ⟨symbol.store lengths.length array, lengths'.length, ib₁, used⟩) := by
          rw [lengthRound, if_pos hi, hread, hlength]
          rfl
        rw [rounds_next hround]
        exact ih hholds hrun
    next hi =>
      obtain ⟨rfl, rfl⟩ := Prod.mk.inj (Option.some.inj hrun)
      refine ⟨⟨array, lengths.length, ib, numBitsUsed⟩, none, rounds_done ?_ fuel, rfl, rfl, h,
        Nat.not_lt.mp hi⟩
      rw [lengthRound, if_neg hi]
      rfl

/-- The cells from `start` on. -/
theorem CodeLengthArray.Holds.map_cells {array : CodeLengthArray} {lengths : List Nat}
    (h : array.Holds lengths) (start count : Nat) (hle : start + count ≤ lengths.length) :
    ((List.range count).map fun k => array.cells (start + k)) =
      (lengths.drop start).take count := by
  apply List.ext_getElem
  · rw [List.length_map, List.length_range, List.length_take, List.length_drop]
    omega
  · intro k hk hk'
    rw [List.length_map, List.length_range] at hk
    rw [List.getElem_map, List.getElem_range, List.getElem_take, List.getElem_drop]
    exact h _ _ (List.getElem?_eq_getElem (by omega))

/-- `initDynamicDecoder` in the same terms. -/
theorem initDynamicDecoder_eq (mem : Mem) (garbage : Nat → Nat) (inflate : Inflate) :
    initDynamicDecoder mem garbage inflate =
      match readLengthsHeader mem inflate.inputBuffer with
      | (ib, none) => some (.inl ({ inflate with inputBuffer := ib }.fail .needInput))
      | (ib, some header) =>
        (readLengths mem (initHuffmanDecoder header.codelenLengths) header.numLens
            (header.numLens + 1) [] ib (garbage inflate.inputBuffer.bitPos)).bind fun read =>
          match read.2 with
          | .error status => some (.inl ({ inflate with inputBuffer := read.1 }.fail status))
          | .ok lengths => some (.inr ({ inflate with inputBuffer := read.1 },
              initHuffmanDecoder (lengths.take header.numLitlenLens),
              initHuffmanDecoder ((lengths.drop header.numLitlenLens).take header.numDistLens))) := by
  unfold initDynamicDecoder readLengthsHeader
  rcases useNumBits mem inflate.inputBuffer 14 with ⟨ok, ib⟩
  cases ok with
  | false => rfl
  | true =>
    dsimp only
    generalize readCodelenLengths mem _ _ _ = read
    obtain ⟨ib', lengths⟩ := read
    cases lengths with
    | none => rfl
    | some codelenLengths =>
      dsimp only [Prod.map, Option.map, id, LengthsHeader.numLens, bind]
      congr 1
      funext read
      obtain ⟨ib'', read⟩ := read
      cases read with
      | error status => rfl
      | ok lengths => rfl

/-- **Where `initDynamicDecoder` has a result, the array in memory leads to the same one.** -/
theorem initDynamicDecoderIn_eq {mem : Mem} {around : Surroundings} {inflate : Inflate}
    (hwithin : inflate.inputBuffer.Within)
    {r : (Bool × Inflate) ⊕ (Inflate × HuffmanDecoder × HuffmanDecoder)}
    (hrun : initDynamicDecoder mem around.numBitsUsed inflate = some r) :
    initDynamicDecoderIn mem around inflate = some r := by
  rw [initDynamicDecoder_eq] at hrun
  unfold initDynamicDecoderIn
  rcases hheader : readLengthsHeader mem inflate.inputBuffer with ⟨ib, header⟩
  rw [hheader] at hrun
  obtain ⟨hadvanced, hvalid⟩ := readLengthsHeader_reads hwithin hheader
  cases header with
  | none =>
    obtain rfl := Option.some.inj hrun
    rfl
  | some header =>
    dsimp only at hrun ⊢
    obtain ⟨⟨ib', read⟩, hread, hrun⟩ := Option.bind_eq_some_iff.mp hrun
    have hempty : CodeLengthArray.Holds ⟨around.codeLengthArray inflate.inputBuffer.bitPos, []⟩ [] :=
      fun _ _ hk => nomatch hk
    obtain ⟨st, status, hrounds, hib, hends⟩ := rounds_of_readLengths _ hempty hread
    -- the loop comes back with the fuel that it has, and with the same result
    obtain ⟨⟨st', status'⟩, hloop, _⟩ := codeLengthLoop_comes_back mem around
      inflate.inputBuffer.bitPos (hvalid header rfl) (hadvanced.within hwithin)
    obtain ⟨rfl, rfl⟩ := Prod.mk.inj (rounds_agree _ hloop hrounds)
    rw [hloop]
    cases read with
    | error status =>
      obtain rfl : status' = some status := hends
      obtain rfl := Option.some.inj hrun
      rw [← hib]
      rfl
    | ok lengths =>
      obtain ⟨rfl, hholds, hlength⟩ := hends
      obtain rfl := Option.some.inj hrun
      unfold LengthsHeader.numLens at hlength
      have hlitlen := hholds.map_cells 0 header.numLitlenLens (by omega)
      have hdist := hholds.map_cells header.numLitlenLens header.numDistLens hlength
      simp only [Nat.zero_add, List.drop_zero] at hlitlen
      rw [← hib, ← hlitlen, ← hdist]
      rfl

end DevopsBroker.Compress
