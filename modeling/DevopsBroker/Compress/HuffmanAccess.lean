import DevopsBroker.Compress.HuffmanTables

/-!
# What the Huffman decoder accesses

The accesses to `table` and `syms` are followed one by one, for code lengths that nobody has
checked: they may be over-subscribed, and a counter may have wrapped around. The log of
`initHuffmanDecoder` leaves nothing out: performing it on cleared arrays gives the decoder.

**`huffmanDecoder_safe`**: every index is inside of its array. For `syms` in `huffmanDecode` this
is so because of the lookup table. When the codewords of up to eight bits take up the whole code
space, every entry of the table answers (`SymbolsCounted.hit_of_below`). When they do not, what
the longer ones take up stays below `2 ^ 16`, and the sentinels are true limits
(`limit_lt_of_room`). A symbol that is found has used at least one bit (`huffmanDecode_uses`).
-/

namespace DevopsBroker.Compress

open DevopsBroker.Lib

/-- One access. -/
inductive DecoderAccess where
  | readTable (index : Nat)
  | writeTable (index : Nat) (entry : TableEntry)
  | readSyms (index : Nat)
  | writeSyms (index symbol : Nat)

/-- It is inside of the array. -/
def DecoderAccess.Safe : DecoderAccess → Prop
  | .readTable index => index < 256
  | .writeTable index _ => index < 256
  | .readSyms index => index < MAX_HUFFMAN_SYMBOLS
  | .writeSyms index _ => index < MAX_HUFFMAN_SYMBOLS

/-- What it does to `syms` and `table`. -/
def DecoderAccess.perform (arrays : Array Nat × Array TableEntry) :
    DecoderAccess → Array Nat × Array TableEntry
  | .readTable _ => arrays
  | .writeTable index entry => (arrays.1, arrays.2.setIfInBounds index entry)
  | .readSyms _ => arrays
  | .writeSyms index symbol => (arrays.1.setIfInBounds index symbol, arrays.2)

/-- Accesses in a row. -/
def performAll (accesses : List DecoderAccess) (arrays : Array Nat × Array TableEntry) :
    Array Nat × Array TableEntry := accesses.foldl DecoderAccess.perform arrays

/-! ## The accesses of `initHuffmanDecoder` -/

/-- The accesses of `insertPaddings`. -/
def paddingAccesses (symbol length codeword : Nat) : Nat → Nat → List DecoderAccess
  | 0, _ => []
  | n + 1, padding =>
    .writeTable (codeword ||| padding <<< length) ⟨symbol % 2 ^ 9, length % 2 ^ 7⟩ ::
      paddingAccesses symbol length codeword n (padding + 1)

/-- The accesses of `tableInsert`. -/
def insertAccesses (symbol length codeword : Nat) : List DecoderAccess :=
  paddingAccesses symbol length (reverse16 codeword length)
    (1 <<< (HUFFMAN_LOOKUP_TABLE_BITS - length)) 0

/-- The accesses of `symbolStep`. -/
def stepAccesses (t : SymbolTables) (i l : Nat) : List DecoderAccess :=
  if l = 0 then []
  else
    .writeSyms (t.symIdx.getD l 0) i ::
      if l ≤ HUFFMAN_LOOKUP_TABLE_BITS then insertAccesses i l (t.nextCode.getD l 0) else []

/-- The accesses of `symbolLoop`. -/
def symbolAccesses : List Nat → Nat → SymbolTables → List DecoderAccess
  | [], _, _ => []
  | l :: ls, i, t => stepAccesses t i l ++ symbolAccesses ls (i + 1) (symbolStep t i l)

/-- What the loop over the code lengths leaves. -/
def filledLengths (lengthArray : List Nat) : LengthTables :=
  let zeros := Array.replicate 16 0
  lengthLoop ((countLengths lengthArray).setIfInBounds 0 0) MAX_HUFFMAN_BITS 1
    ⟨zeros, zeros, zeros, zeros⟩

/-- Cleared `syms` and `table`. -/
def clearedArrays : Array Nat × Array TableEntry :=
  (Array.replicate MAX_HUFFMAN_SYMBOLS 0, Array.replicate (1 <<< HUFFMAN_LOOKUP_TABLE_BITS) ⟨0, 0⟩)

/-- What the loop over the symbols starts from. -/
def startTables (lengthArray : List Nat) : SymbolTables :=
  { nextCode := (filledLengths lengthArray).nextCode
    symIdx := (filledLengths lengthArray).symIdx
    syms := clearedArrays.1
    table := clearedArrays.2 }

/-- The accesses of `initHuffmanDecoder`. -/
def initAccesses (lengthArray : List Nat) : List DecoderAccess :=
  symbolAccesses lengthArray 0 (startTables lengthArray)

/-- The decoder, in these terms. -/
theorem initHuffmanDecoder_eq (lengthArray : List Nat) :
    initHuffmanDecoder lengthArray =
      { table := (symbolLoop lengthArray 0 (startTables lengthArray)).table
        sentinelBits := (filledLengths lengthArray).sentinelBits
        offsetFirstSymIdx := (filledLengths lengthArray).offsetFirstSymIdx
        syms := (symbolLoop lengthArray 0 (startTables lengthArray)).syms
        numSymbols := 0 } := rfl

/-! ## The accesses of `huffmanDecode` -/

/-- The accesses of `searchLengths`. -/
def searchAccesses (decoder : HuffmanDecoder) (bits : Nat) : Nat → Nat → List DecoderAccess
  | 0, _ => []
  | n + 1, l =>
    if bits < decoder.sentinelBits.getD l 0 then
      [.readSyms ((decoder.offsetFirstSymIdx.getD l 0 + bits >>> (MAX_HUFFMAN_BITS - l)) % 2 ^ 16)]
    else searchAccesses decoder bits n (l + 1)

/-- The accesses of `huffmanDecode`: an entry that is found is read twice more. -/
def decodeAccesses (bits : Nat) (decoder : HuffmanDecoder) : List DecoderAccess :=
  let bits := bits % 2 ^ 16
  let index := bits &&& 0xFF
  .readTable index ::
    if (decoder.table.getD index ⟨0, 0⟩).len ≠ 0 then [.readTable index, .readTable index]
    else
      searchAccesses decoder (reverse16 bits MAX_HUFFMAN_BITS)
        (MAX_HUFFMAN_BITS - HUFFMAN_LOOKUP_TABLE_BITS) (HUFFMAN_LOOKUP_TABLE_BITS + 1)

/-! ## The logs are complete -/

theorem performAll_append (xs ys : List DecoderAccess) (arrays : Array Nat × Array TableEntry) :
    performAll (xs ++ ys) arrays = performAll ys (performAll xs arrays) := List.foldl_append

theorem performAll_paddingAccesses (symbol length codeword n : Nat) :
    ∀ (padding : Nat) (syms : Array Nat) (table : Array TableEntry),
      performAll (paddingAccesses symbol length codeword n padding) (syms, table) =
        (syms, insertPaddings symbol length codeword n padding table) := by
  induction n with
  | zero =>
    intro padding syms table
    rfl
  | succ n ih =>
    intro padding syms table
    exact ih (padding + 1) syms _

theorem performAll_stepAccesses (t : SymbolTables) (i l : Nat) :
    performAll (stepAccesses t i l) (t.syms, t.table) =
      ((symbolStep t i l).syms, (symbolStep t i l).table) := by
  unfold stepAccesses symbolStep
  split
  next _ => rfl
  next _ =>
    dsimp only
    split
    next _ => exact performAll_paddingAccesses ..
    next _ => rfl

theorem performAll_symbolAccesses (ls : List Nat) :
    ∀ (i : Nat) (t : SymbolTables),
      performAll (symbolAccesses ls i t) (t.syms, t.table) =
        ((symbolLoop ls i t).syms, (symbolLoop ls i t).table) := by
  induction ls with
  | nil =>
    intro i t
    rfl
  | cons l ls ih =>
    intro i t
    rw [symbolAccesses, performAll_append, performAll_stepAccesses, ih, symbolLoop]

/-! ## How far the codewords go -/

section

variable {cnt : Nat → Nat}

/-- Codewords of more than `l` bits take up their share at most. -/
theorem limit_le_add {W l m : Nat} (hlm : l ≤ m) (hm : m ≤ W) :
    limit cnt W m ≤
      limit cnt W l + (firstIndex cnt (m + 1) - firstIndex cnt (l + 1)) * 2 ^ (W - (l + 1)) := by
  induction m with
  | zero =>
    obtain rfl : l = 0 := Nat.le_zero.mp hlm
    exact Nat.le_add_right _ _
  | succ m ih =>
    rcases Nat.lt_or_ge l (m + 1) with hlt | hge
    · have hrec := ih (by omega) (by omega)
      have hpow : 2 ^ (W - (m + 1)) ≤ 2 ^ (W - (l + 1)) :=
        Nat.pow_le_pow_right (by omega) (by omega)
      have hnew := Nat.mul_le_mul_left (cnt (m + 1)) hpow
      have hmono := firstIndex_mono cnt (show l + 1 ≤ m + 1 by omega)
      have hsplit : firstIndex cnt (m + 1 + 1) - firstIndex cnt (l + 1) =
          firstIndex cnt (m + 1) - firstIndex cnt (l + 1) + cnt (m + 1) := by
        rw [firstIndex]
        omega
      rw [limit_succ cnt (by omega), hsplit, Nat.add_mul]
      omega
    · obtain rfl : l = m + 1 := by omega
      exact Nat.le_add_right _ _

/-- Where the codewords of up to eight bits leave some room, and there are no more than 288 of all
lengths, the last limit fits into 16 bits. -/
theorem limit_lt_of_room (hroom : limit cnt 8 8 < 2 ^ 8) (hall : firstIndex cnt 16 ≤ 288) {l : Nat}
    (hl : l ≤ 15) : limit cnt 15 l < 2 ^ 16 := by
  have hmono := limit_mono cnt hl (Nat.le_refl 15)
  have hadd := @limit_le_add cnt 15 8 15 (by omega) (Nat.le_refl 15)
  have hscale : limit cnt 15 8 = limit cnt 8 8 * 2 ^ 7 := by
    rw [limit, limit, Nat.sub_self, Nat.pow_zero, Nat.mul_one]
  have hsixteen : firstIndex cnt (15 + 1) ≤ 288 := hall
  rw [hscale] at hadd
  omega

end

/-! ## The tables of any code -/

section

variable {lens : List Nat}

/-- The tables after the symbols below `n`, for a code that may be over-subscribed. -/
structure SymbolsCounted (lens : List Nat) (n : Nat) (t : SymbolTables) : Prop where
  size_nextCode : t.nextCode.size = 16
  size_symIdx : t.symIdx.size = 16
  size_table : t.table.size = 256
  nextCode : ∀ l, l ≠ 0 → l ≤ 8 →
    t.nextCode.getD l 0 = firstCode (byteCount lens) l + (lens.take n).count l
  symIdx : ∀ l, l ≠ 0 → l ≤ 15 →
    t.symIdx.getD l 0 = firstIndex (byteCount lens) l + (lens.take n).count l
  hit : ∀ idx < 256, ∀ s < n, codeLen lens s ≠ 0 → codeLen lens s ≤ 8 →
    msbFirst idx.testBit (codeLen lens s) =
      (firstCode (byteCount lens) (codeLen lens s) + rank lens s) % 2 ^ codeLen lens s →
    (t.table.getD idx ⟨0, 0⟩).len ≠ 0

theorem SymbolsCounted.counters {n : Nat} {t : SymbolTables} (h : SymbolsCounted lens n t) :
    CountersAt lens n t :=
  ⟨h.size_nextCode, h.size_symIdx, h.size_table, h.nextCode, h.symIdx⟩

/-- The entries of the symbols below `n`, after one more symbol. -/
theorem SymbolsCounted.hit_step (hlength : lens.length ≤ MAX_HUFFMAN_SYMBOLS)
    (hle : ∀ l ∈ lens, l ≤ MAX_HUFFMAN_BITS) {n : Nat} {t : SymbolTables}
    (h : SymbolsCounted lens n t) :
    ∀ idx < 256, ∀ s < n + 1, codeLen lens s ≠ 0 → codeLen lens s ≤ 8 →
      msbFirst idx.testBit (codeLen lens s) =
        (firstCode (byteCount lens) (codeLen lens s) + rank lens s) % 2 ^ codeLen lens s →
      ((symbolStep t n (codeLen lens n)).table.getD idx ⟨0, 0⟩).len ≠ 0 := by
  intro idx hidx s hs hne hs8 hmatch
  have hearlier : s ≠ n → s < n := by omega
  by_cases h0 : codeLen lens n = 0
  · rw [symbolStep, if_pos h0]
    refine h.hit idx hidx s (hearlier ?_) hne hs8 hmatch
    intro hsame
    rw [hsame] at hne
    exact hne h0
  · rcases Nat.lt_or_ge 8 (codeLen lens n) with hlong | hshort
    · rw [h.counters.step_long hlength hle h0 hlong]
      refine h.hit idx hidx s (hearlier ?_) hne hs8 hmatch
      intro hsame
      rw [hsame] at hs8
      omega
    · have hlt : firstCode (byteCount lens) (codeLen lens n) + rank lens n < 2 ^ 16 - 1 :=
        shortCode_lt hlength hshort
      rw [h.counters.step_short hlength hle h0 hshort]
      dsimp only
      rw [tableInsert_getD_mod h.size_table hshort (by omega) hidx]
      split
      next _ =>
        -- this symbol's own entries
        show codeLen lens n % 2 ^ 7 ≠ 0
        omega
      next hother =>
        refine h.hit idx hidx s (hearlier ?_) hne hs8 hmatch
        intro hsame
        rw [hsame] at hmatch
        exact hother hmatch

/-- One symbol. -/
theorem symbolStep_counted (hlength : lens.length ≤ MAX_HUFFMAN_SYMBOLS)
    (hle : ∀ l ∈ lens, l ≤ MAX_HUFFMAN_BITS) {n : Nat} {t : SymbolTables}
    (h : SymbolsCounted lens n t) (hn : n < lens.length) :
    SymbolsCounted lens (n + 1) (symbolStep t n (codeLen lens n)) := by
  have hcounters := h.counters.step hlength hle hn
  exact ⟨hcounters.size_nextCode, hcounters.size_symIdx, hcounters.size_table, hcounters.nextCode,
    hcounters.symIdx, h.hit_step hlength hle⟩

/-- **The table answers whatever begins below the codewords of up to eight bits.** -/
theorem SymbolsCounted.hit_of_below {t : SymbolTables} (h : SymbolsCounted lens lens.length t)
    {idx : Nat} (hidx : idx < 256)
    (hbelow : msbFirst idx.testBit 8 < limit (byteCount lens) 8 8) :
    (t.table.getD idx ⟨0, 0⟩).len ≠ 0 := by
  obtain ⟨l, hl, hlow, hhigh⟩ := exists_limit (show byteCount lens 0 = 0 from rfl) hbelow
  obtain ⟨hge, hup⟩ := firstCode_le_msbFirst hl hlow hhigh
  have hrank : msbFirst idx.testBit (l + 1) - firstCode (byteCount lens) (l + 1) <
      (lens.take lens.length).count (l + 1) := by
    have hle := byteCount_le lens (l + 1)
    rw [show codeCount lens (l + 1) = lens.count (l + 1) from if_neg (Nat.succ_ne_zero l)] at hle
    rw [List.take_length]
    omega
  obtain ⟨s, hlen, hs⟩ := exists_rank lens.length (Nat.le_refl _) _ hrank
  have hne : codeLen lens s ≠ 0 := by
    rw [hlen]
    exact Nat.succ_ne_zero l
  refine h.hit idx hidx s (codeLen_lt hne) hne (by omega) ?_
  rw [hlen, hs, Nat.add_sub_cancel' hge]
  exact (Nat.mod_eq_of_lt (msbFirst_lt _ _)).symm

/-- The writes of one codeword. -/
theorem insertAccesses_safe {symbol length codeword : Nat} (hlen : length ≤ 8)
    (hcode : codeword < 2 ^ 16) :
    ∀ access ∈ insertAccesses symbol length codeword, access.Safe := by
  have hreverse : reverse16 codeword length < 2 ^ length := by
    rw [reverse16_eq_msbFirst hcode (by omega)]
    exact msbFirst_lt _ _
  have hfull : 2 ^ (8 - length) * 2 ^ length = 256 := by
    rw [← Nat.pow_add, Nat.sub_add_cancel hlen]
  suffices hall : ∀ (n padding : Nat), padding + n ≤ 2 ^ (8 - length) →
      ∀ access ∈ paddingAccesses symbol length (reverse16 codeword length) n padding,
        access.Safe by
    refine hall _ 0 ?_
    rw [Nat.zero_add, Nat.one_shiftLeft]
  intro n
  induction n with
  | zero =>
    intro padding _ access h
    exact absurd h List.not_mem_nil
  | succ n ih =>
    intro padding hpad access h
    rcases List.mem_cons.mp h with rfl | h
    · have hsplit : reverse16 codeword length ||| padding <<< length =
          padding * 2 ^ length + reverse16 codeword length := by
        rw [Nat.or_comm, Nat.shiftLeft_eq, Nat.mul_comm, ← Nat.two_pow_add_eq_or_of_lt hreverse]
      have hmul : (padding + 1) * 2 ^ length ≤ 2 ^ (8 - length) * 2 ^ length :=
        Nat.mul_le_mul_right _ (by omega)
      rw [Nat.add_mul] at hmul
      show reverse16 codeword length ||| padding <<< length < 256
      omega
    · exact ih (padding + 1) (by omega) access h

/-- One symbol. -/
theorem stepAccesses_safe (hlength : lens.length ≤ MAX_HUFFMAN_SYMBOLS)
    (hle : ∀ l ∈ lens, l ≤ MAX_HUFFMAN_BITS) {n : Nat} {t : SymbolTables}
    (h : SymbolsCounted lens n t) :
    ∀ access ∈ stepAccesses t n (codeLen lens n), access.Safe := by
  intro access hmem
  unfold stepAccesses at hmem
  split at hmem
  next _ => exact absurd hmem List.not_mem_nil
  next h0 =>
    have hle15 : codeLen lens n ≤ 15 := codeLen_le hle n
    have hindex : t.symIdx.getD (codeLen lens n) 0 = symPos lens n := h.symIdx _ h0 hle15
    rcases List.mem_cons.mp hmem with rfl | hmem
    · show t.symIdx.getD (codeLen lens n) 0 < MAX_HUFFMAN_SYMBOLS
      rw [hindex]
      exact Nat.lt_of_lt_of_le (symPos_lt_length h0) hlength
    · split at hmem
      next hshort =>
        rw [h.nextCode _ h0 hshort] at hmem
        have hlt := shortCode_lt hlength (n := n) hshort
        exact insertAccesses_safe hshort (by omega) access hmem
      next _ => exact absurd hmem List.not_mem_nil

/-- All symbols from `n` on. -/
theorem symbolLoop_counted (hlength : lens.length ≤ MAX_HUFFMAN_SYMBOLS)
    (hle : ∀ l ∈ lens, l ≤ MAX_HUFFMAN_BITS) (rest : List Nat) :
    ∀ {n : Nat} {t : SymbolTables}, lens.drop n = rest → n ≤ lens.length →
      SymbolsCounted lens n t →
      (∀ access ∈ symbolAccesses rest n t, access.Safe) ∧
        SymbolsCounted lens lens.length (symbolLoop rest n t) := by
  induction rest with
  | nil =>
    intro n t hdrop hn h
    have hend := List.drop_eq_nil_iff.mp hdrop
    obtain rfl : n = lens.length := by omega
    exact ⟨fun access hmem => absurd hmem List.not_mem_nil, h⟩
  | cons l rest ih =>
    intro n t hdrop hn h
    obtain ⟨hlt, hcode, hrest⟩ := codeLen_of_drop hdrop
    obtain ⟨hsafe, hdone⟩ := ih hrest hlt (symbolStep_counted hlength hle h hlt)
    rw [symbolAccesses, symbolLoop, ← hcode]
    refine ⟨?_, hdone⟩
    intro access hmem
    rcases List.mem_append.mp hmem with hmem | hmem
    · exact stepAccesses_safe hlength hle h access hmem
    · exact hsafe access hmem

/-- The tables that the loop over the lengths leaves. -/
theorem filledLengths_counted (hle : ∀ l ∈ lens, l ≤ MAX_HUFFMAN_BITS) :
    LengthsCounted (byteCount lens) 16 (filledLengths lens) :=
  lengthLoop_counted (fun _ hl => countLengths_getD hle hl)
    (Nat.lt_of_le_of_lt (firstIndex_byteCount_le lens 16) (by omega)) 15 (by decide) (by decide)
    (lengthsCounted_zeros _)

theorem startTables_counted (hlength : lens.length ≤ MAX_HUFFMAN_SYMBOLS)
    (hle : ∀ l ∈ lens, l ≤ MAX_HUFFMAN_BITS) : SymbolsCounted lens 0 (startTables lens) := by
  have h := filledLengths_counted hle
  unfold startTables
  generalize filledLengths lens = lengths at h
  refine ⟨h.size_nextCode, h.size_symIdx, Array.size_replicate .., ?_, ?_, ?_⟩
  · intro l _ hl8
    have hlt := shortCode_lt hlength (n := 0) hl8
    dsimp only
    rw [h.nextCode l (by omega), List.take_zero, List.count_nil, Nat.add_zero]
    exact Nat.mod_eq_of_lt (by omega)
  · intro l _ hl15
    dsimp only
    rw [h.symIdx l (by omega), List.take_zero, List.count_nil, Nat.add_zero]
  · intro idx _ s hs
    exact absurd hs (Nat.not_lt_zero s)

/-- **The index into `syms` belongs to the length that the sentinels tell**, where nothing wraps
around and the shorter codewords are below the bits. -/
theorem searchAccesses_safe (hlength : lens.length ≤ MAX_HUFFMAN_SYMBOLS) {d : HuffmanDecoder}
    (hsentinel : ∀ l, l ≠ 0 → l ≤ 15 →
      d.sentinelBits.getD l 0 = limit (byteCount lens) 15 l % 2 ^ 16)
    (hoffset : ∀ l, l ≠ 0 → l ≤ 15 → d.offsetFirstSymIdx.getD l 0 =
      (firstIndex (byteCount lens) l + 2 ^ 16 - firstCode (byteCount lens) l % 2 ^ 16) % 2 ^ 16)
    (hwide : ∀ l ≤ 15, limit (byteCount lens) 15 l < 2 ^ 16) {bits : Nat} (n : Nat) :
    ∀ (l : Nat), l + 1 + n = 16 → limit (byteCount lens) 15 l ≤ bits →
      ∀ access ∈ searchAccesses d bits n (l + 1), access.Safe := by
  induction n with
  | zero =>
    intro l _ _ access h
    exact absurd h List.not_mem_nil
  | succ n ih =>
    intro l hln hlow access h
    have hlimit := hsentinel (l + 1) (by omega) (by omega)
    rw [Nat.mod_eq_of_lt (hwide (l + 1) (by omega))] at hlimit
    unfold searchAccesses at h
    split at h
    next hbelow =>
      rw [List.mem_singleton] at h
      subst h
      rw [hlimit] at hbelow
      -- the first bits lie among the codewords of this length
      have hpos : 0 < 2 ^ (15 - (l + 1)) := Nat.two_pow_pos _
      have hge : firstCode (byteCount lens) (l + 1) ≤ bits / 2 ^ (15 - (l + 1)) := by
        rw [Nat.le_div_iff_mul_le hpos, firstCode_mul _ (by omega)]
        exact hlow
      have hup : bits / 2 ^ (15 - (l + 1)) <
          firstCode (byteCount lens) (l + 1) + byteCount lens (l + 1) := by
        rw [Nat.div_lt_iff_lt_mul hpos]
        exact hbelow
      have hcode : firstCode (byteCount lens) (l + 1) < 2 ^ 16 := by
        have hmul := Nat.le_mul_of_pos_right (firstCode (byteCount lens) (l + 1)) hpos
        rw [firstCode_mul _ (by omega)] at hmul
        exact Nat.lt_of_le_of_lt hmul (hwide l (by omega))
      have hindex := Nat.le_trans
        (firstIndex_le_firstIndex (byteCount_le lens) (l + 1 + 1)) (firstIndex_le_length lens _)
      rw [firstIndex] at hindex
      show (d.offsetFirstSymIdx.getD (l + 1) 0 + bits >>> (15 - (l + 1))) % 2 ^ 16 < 288
      rw [hoffset (l + 1) (by omega) (by omega), Nat.mod_eq_of_lt hcode, Nat.shiftRight_eq_div_pow]
      simp only [MAX_HUFFMAN_SYMBOLS] at hlength
      omega
    next hno =>
      rw [hlimit] at hno
      exact ih (l + 1) (by omega) (by omega) access h

/-- **Decoding stays inside of the arrays.** -/
theorem decodeAccesses_safe (hlength : lens.length ≤ MAX_HUFFMAN_SYMBOLS)
    (hle : ∀ l ∈ lens, l ≤ MAX_HUFFMAN_BITS) (bits : Nat) :
    ∀ access ∈ decodeAccesses bits (initHuffmanDecoder lens), access.Safe := by
  have hlengths := filledLengths_counted hle
  obtain ⟨_, hsymbols⟩ := symbolLoop_counted hlength hle lens rfl (Nat.zero_le _)
    (startTables_counted hlength hle)
  have hindex : bits % 2 ^ 16 &&& 0xFF < 256 := Nat.lt_of_le_of_lt Nat.and_le_right (by omega)
  rw [initHuffmanDecoder_eq]
  generalize symbolLoop lens 0 (startTables lens) = symbols at hsymbols
  generalize filledLengths lens = lengths at hlengths
  intro access hmem
  unfold decodeAccesses at hmem
  rcases List.mem_cons.mp hmem with rfl | hmem
  · exact hindex
  · split at hmem
    next _ =>
      have hsame : access = .readTable (bits % 2 ^ 16 &&& 0xFF) := by
        rcases List.mem_cons.mp hmem with h | h
        · exact h
        · exact List.mem_singleton.mp h
      rw [hsame]
      exact hindex
    next hmiss =>
      -- the table does not answer, and so the bits are above the codewords of up to eight bits
      have height : msbFirst (bits % 2 ^ 16 &&& 0xFF).testBit 8 =
          msbFirst (bits % 2 ^ 16).testBit 8 := by
        refine msbFirst_congr ?_
        intro i hi
        rw [show (0xFF : Nat) = 2 ^ 8 - 1 from rfl, Nat.and_two_pow_sub_one_eq_mod,
          Nat.testBit_mod_two_pow, decide_eq_true hi, Bool.true_and]
      have habove : limit (byteCount lens) 8 8 ≤ msbFirst (bits % 2 ^ 16).testBit 8 := by
        rw [← height]
        exact Nat.not_lt.mp fun hbelow => hmiss (hsymbols.hit_of_below hindex hbelow)
      have hroom : limit (byteCount lens) 8 8 < 2 ^ 8 :=
        Nat.lt_of_le_of_lt habove (msbFirst_lt _ _)
      have hall : firstIndex (byteCount lens) 16 ≤ 288 :=
        Nat.le_trans (firstIndex_le_firstIndex (byteCount_le lens) 16)
          (Nat.le_trans (firstIndex_le_length lens 16) hlength)
      have hlow : limit (byteCount lens) 15 8 ≤ msbFirst (bits % 2 ^ 16).testBit 15 := by
        have hdiv := msbFirst_div (bits % 2 ^ 16).testBit 8 7
        rw [← hdiv, Nat.le_div_iff_mul_le (Nat.two_pow_pos 7)] at habove
        rw [limit, Nat.sub_self, Nat.pow_zero, Nat.mul_one] at habove
        exact habove
      have hbits : reverse16 (bits % 2 ^ 16) 15 = msbFirst (bits % 2 ^ 16).testBit 15 :=
        reverse16_eq_msbFirst (Nat.mod_lt _ (by omega)) (by decide)
      simp only [MAX_HUFFMAN_BITS, HUFFMAN_LOOKUP_TABLE_BITS, Nat.reduceSub, hbits] at hmem
      exact searchAccesses_safe hlength (fun l hl hl15 => hlengths.sentinelBits l (by omega) hl)
        (fun l hl hl15 => hlengths.offset l (by omega) hl) (fun l hl => limit_lt_of_room hroom hall hl)
        7 8 rfl hlow access hmem

/-- A search whose accesses are safe gives a symbol, or says that there is none. -/
theorem searchLengths_isSome {decoder : HuffmanDecoder} (hsize : decoder.syms.size = 288)
    {bits numBitsUsed : Nat} (n : Nat) :
    ∀ (l : Nat), (∀ access ∈ searchAccesses decoder bits n l, access.Safe) →
      (searchLengths decoder bits numBitsUsed n l).isSome := by
  induction n with
  | zero =>
    intro l _
    rfl
  | succ n ih =>
    intro l hsafe
    unfold searchAccesses at hsafe
    unfold searchLengths
    split
    next hbelow =>
      rw [if_pos hbelow] at hsafe
      have hindex := hsafe _ (List.mem_singleton.mpr rfl)
      rw [Option.isSome_map, Array.getElem?_eq_getElem (by rw [hsize]; exact hindex)]
      rfl
    next hno =>
      rw [if_neg hno] at hsafe
      exact ih (l + 1) hsafe

theorem symbolLoop_syms_size (ls : List Nat) :
    ∀ (i : Nat) (t : SymbolTables), (symbolLoop ls i t).syms.size = t.syms.size := by
  induction ls with
  | nil =>
    intro i t
    rfl
  | cons l ls ih =>
    intro i t
    rw [symbolLoop, ih]
    unfold symbolStep
    split
    next _ => rfl
    next _ =>
      dsimp only
      split
      next _ => exact Array.size_setIfInBounds
      next _ => exact Array.size_setIfInBounds

/-- Decoding always has a result. -/
theorem huffmanDecode_isSome (hlength : lens.length ≤ MAX_HUFFMAN_SYMBOLS)
    (hle : ∀ l ∈ lens, l ≤ MAX_HUFFMAN_BITS) (bits numBitsUsed : Nat) :
    (huffmanDecode bits (initHuffmanDecoder lens) numBitsUsed).isSome := by
  have hsafe := decodeAccesses_safe hlength hle bits
  have hsize : (initHuffmanDecoder lens).syms.size = 288 := by
    rw [initHuffmanDecoder_eq]
    dsimp only
    rw [symbolLoop_syms_size]
    exact Array.size_replicate ..
  unfold decodeAccesses at hsafe
  unfold huffmanDecode
  dsimp only at hsafe ⊢
  split
  next _ => rfl
  next hmiss =>
    rw [if_neg hmiss] at hsafe
    exact searchLengths_isSome hsize _ _ fun access hmem =>
      hsafe access (List.mem_cons_of_mem _ hmem)

/-- **Every index into `table` and `syms` is inside of its array**, whatever the code lengths and
the bits. -/
theorem huffmanDecoder_safe (hlength : lens.length ≤ MAX_HUFFMAN_SYMBOLS)
    (hle : ∀ l ∈ lens, l ≤ MAX_HUFFMAN_BITS) :
    (∀ access ∈ initAccesses lens, access.Safe) ∧
      performAll (initAccesses lens) clearedArrays =
        ((initHuffmanDecoder lens).syms, (initHuffmanDecoder lens).table) ∧
      ∀ bits, ∀ access ∈ decodeAccesses bits (initHuffmanDecoder lens), access.Safe := by
  obtain ⟨hsafe, _⟩ := symbolLoop_counted hlength hle lens rfl (Nat.zero_le _)
    (startTables_counted hlength hle)
  refine ⟨hsafe, ?_, decodeAccesses_safe hlength hle⟩
  rw [initHuffmanDecoder_eq]
  exact performAll_symbolAccesses lens 0 (startTables lens)

/-- Three codewords of one bit, one too many. -/
theorem huffmanDecoder_safe_oversubscribed :
    (∀ access ∈ initAccesses [1, 1, 1], access.Safe) ∧
      performAll (initAccesses [1, 1, 1]) clearedArrays =
        ((initHuffmanDecoder [1, 1, 1]).syms, (initHuffmanDecoder [1, 1, 1]).table) ∧
      ∀ bits, ∀ access ∈ decodeAccesses bits (initHuffmanDecoder [1, 1, 1]), access.Safe :=
  huffmanDecoder_safe (by decide) (by decide)

/-! ## How many bits a codeword takes -/

/-- The lengths in the table fit into seven bits. -/
def SmallEntries (table : Array TableEntry) : Prop :=
  ∀ index, (table.getD index ⟨0, 0⟩).len < 2 ^ 7

theorem SmallEntries.set {table : Array TableEntry} (h : SmallEntries table) (index : Nat)
    {entry : TableEntry} (hentry : entry.len < 2 ^ 7) :
    SmallEntries (table.setIfInBounds index entry) := by
  intro i
  have hi := h i
  rw [Array.getD_eq_getD_getElem?] at hi ⊢
  rw [Array.getElem?_setIfInBounds]
  split
  next _ =>
    split
    next _ => exact hentry
    next _ => exact Nat.two_pow_pos 7
  next _ => exact hi

theorem insertPaddings_small {symbol length codeword : Nat} (n : Nat) :
    ∀ (padding : Nat) {table : Array TableEntry}, SmallEntries table →
      SmallEntries (insertPaddings symbol length codeword n padding table) := by
  induction n with
  | zero => exact fun _ _ h => h
  | succ n ih =>
    intro padding table h
    exact ih (padding + 1) (h.set _ (Nat.mod_lt _ (Nat.two_pow_pos 7)))

theorem symbolLoop_small (ls : List Nat) :
    ∀ (i : Nat) {t : SymbolTables}, SmallEntries t.table →
      SmallEntries (symbolLoop ls i t).table := by
  induction ls with
  | nil => exact fun _ _ h => h
  | cons l ls ih =>
    intro i t h
    rw [symbolLoop]
    apply ih
    unfold symbolStep
    split
    next _ => exact h
    next _ =>
      dsimp only
      split
      next _ => exact insertPaddings_small _ 0 h
      next _ => exact h

theorem initHuffmanDecoder_small (lengthArray : List Nat) :
    SmallEntries (initHuffmanDecoder lengthArray).table := by
  rw [initHuffmanDecoder_eq]
  apply symbolLoop_small
  intro index
  show ((Array.replicate 256 (⟨0, 0⟩ : TableEntry)).getD index ⟨0, 0⟩).len < 2 ^ 7
  rw [Array.getD_eq_getD_getElem?, Array.getElem?_replicate]
  split
  next _ => exact Nat.two_pow_pos 7
  next _ => exact Nat.two_pow_pos 7

theorem searchLengths_uses {decoder : HuffmanDecoder} {bits numBitsUsed used : Nat} {symbol : Int}
    (n : Nat) :
    ∀ (l : Nat), searchLengths decoder bits numBitsUsed n l = some (symbol, used) →
      symbol = -1 ∨ l ≤ used ∧ used < l + n := by
  induction n with
  | zero =>
    intro l h
    exact Or.inl (Prod.mk.inj (Option.some.inj h)).1.symm
  | succ n ih =>
    intro l h
    unfold searchLengths at h
    split at h
    next _ =>
      obtain ⟨sym, _, hsame⟩ := Option.map_eq_some_iff.mp h
      obtain ⟨_, rfl⟩ := Prod.mk.inj hsame
      exact Or.inr ⟨Nat.le_refl _, by omega⟩
    next _ =>
      rcases ih (l + 1) h with hnone | hused
      · exact Or.inl hnone
      · exact Or.inr ⟨by omega, by omega⟩

/-- **A symbol that is found has used some bits**, whatever the decoder holds. -/
theorem huffmanDecode_uses {decoder : HuffmanDecoder} (h : SmallEntries decoder.table)
    {bits numBitsUsed used : Nat} {symbol : Int}
    (hrun : huffmanDecode bits decoder numBitsUsed = some (symbol, used)) :
    symbol = -1 ∨ 0 < used ∧ used < 2 ^ 7 := by
  unfold huffmanDecode at hrun
  dsimp only at hrun
  split at hrun
  next hentry =>
    obtain ⟨_, rfl⟩ := Prod.mk.inj (Option.some.inj hrun)
    exact Or.inr ⟨Nat.pos_of_ne_zero hentry, h _⟩
  next _ =>
    rcases searchLengths_uses _ _ hrun with hnone | hused
    · exact Or.inl hnone
    · simp only [HUFFMAN_LOOKUP_TABLE_BITS, MAX_HUFFMAN_BITS] at hused
      exact Or.inr ⟨by omega, by omega⟩

end

end DevopsBroker.Compress
