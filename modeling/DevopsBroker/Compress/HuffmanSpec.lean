import DevopsBroker.Compress.HuffmanTables

/-!
# When the decoder agrees with the canonical code

A codeword of at most eight bits is found in the lookup table. A longer one is
found by the sentinel search if the byte counts have not lost it: `Reached` says
that no shorter length has 256 codewords or more, and that fewer codewords of
the symbol's own length come before it than the byte counter shows.

- `huffmanDecode_reached`: a symbol that is not lost is decoded;
- `huffmanDecode_lost`: a lost one is not, whatever the search comes up with;
- `huffmanDecode_none`: without a codeword the result is `-1`, and `*numBitsUsed`
  is what it was before.

**`huffmanDecode_agrees_iff`** puts the three together.
-/

namespace DevopsBroker.Compress

open DevopsBroker.Lib

/-- The byte counters have not lost the codeword of `s`. -/
def Reached (lens : List Nat) (s : Nat) : Prop :=
  codeLen lens s ≤ HUFFMAN_LOOKUP_TABLE_BITS ∨
    (∀ l < codeLen lens s, codeCount lens l < 2 ^ 8) ∧
      rank lens s < codeCount lens (codeLen lens s) % 2 ^ 8

/-! ## The sentinel search -/

section

variable {lens : List Nat} {d : HuffmanDecoder}

/-- The search stops at the first sentinel above the bits. -/
theorem searchLengths_hit (hd : DecoderFor lens d) (nb : Nat) {R m : Nat} (hm : m ≤ 15)
    (hhit : R < limit (byteCount lens) 15 m) :
    ∀ (n : Nat) {l : Nat}, l ≠ 0 → l ≤ m → m < l + n →
      (∀ j, l ≤ j → j < m → limit (byteCount lens) 15 j ≤ R) →
      searchLengths d R nb n l =
        d.syms[(d.offsetFirstSymIdx.getD m 0 + R >>> (15 - m)) % 2 ^ 16]?.map
          fun sym => (Int.ofNat sym, m) := by
  intro n
  induction n with
  | zero => intro l _ hlm hml _; omega
  | succ n ih =>
    intro l hl hlm hml hbelow
    rw [searchLengths, hd.sentinelBits l hl (by omega)]
    rcases Nat.lt_or_ge l m with hlt | hge
    · rw [if_neg (Nat.not_lt.mpr (hbelow l (Nat.le_refl l) hlt))]
      exact ih (by omega) hlt (by omega) fun j hj => hbelow j (by omega)
    · obtain rfl : l = m := by omega
      rw [if_pos hhit]

/-- The search comes up empty when no sentinel is above the bits. -/
theorem searchLengths_miss (hd : DecoderFor lens d) (nb : Nat) {R : Nat} :
    ∀ (n : Nat) {l : Nat}, l ≠ 0 → l + n ≤ 16 →
      (∀ j, l ≤ j → j < l + n → limit (byteCount lens) 15 j ≤ R) →
      searchLengths d R nb n l = some (-1, nb) := by
  intro n
  induction n with
  | zero => intro l _ _ _; rfl
  | succ n ih =>
    intro l hl hln hbelow
    rw [searchLengths, hd.sentinelBits l hl (by omega),
      if_neg (Nat.not_lt.mpr (hbelow l (Nat.le_refl l) (by omega)))]
    exact ih (by omega) (by omega) fun j hj hjn => hbelow j (by omega) (by omega)

/-- A search that finds a symbol found it below the sentinel of its length. -/
theorem searchLengths_found (hd : DecoderFor lens d) {R nb m sym : Nat} :
    ∀ (n : Nat) {l : Nat}, l ≠ 0 → l + n ≤ 16 →
      searchLengths d R nb n l = some (Int.ofNat sym, m) → R < limit (byteCount lens) 15 m := by
  intro n
  induction n with
  | zero =>
    intro l _ _ h
    have hneg : (-1 : Int) = Int.ofNat sym := congrArg Prod.fst (Option.some.inj h)
    exact absurd hneg (by simp)
  | succ n ih =>
    intro l hl hln h
    rw [searchLengths, hd.sentinelBits l hl (by omega)] at h
    split at h
    next hlt =>
      obtain ⟨sym', _, heq⟩ := Option.map_eq_some_iff.mp h
      have hlm : l = m := congrArg Prod.snd heq
      exact hlm ▸ hlt
    next => exact ih (by omega) (by omega) h

/-! ## Decoding -/

/-- The table index has the low eight bits of the stream. -/
theorem begins_index {bits s : Nat} (hs : codeLen lens s ≤ 8) :
    Begins lens (bits % 2 ^ 16 &&& 0xFF).testBit s ↔ Begins lens bits.testBit s := by
  have hbit : ∀ i < codeLen lens s, (bits % 2 ^ 16 &&& 0xFF).testBit i = bits.testBit i := by
    intro i hi
    rw [show (0xFF : Nat) = 2 ^ 8 - 1 from rfl, Nat.and_two_pow_sub_one_eq_mod,
      Nat.testBit_mod_two_pow, Nat.testBit_mod_two_pow, decide_eq_true (by omega),
      decide_eq_true (by omega)]
    rfl
  rw [Begins, Begins, msbFirst_congr hbit]

theorem index_lt (bits : Nat) : bits % 2 ^ 16 &&& 0xFF < 256 :=
  Nat.lt_of_le_of_lt Nat.and_le_right (by omega)

/-- A short codeword is in the table. -/
theorem huffmanDecode_short (hd : DecoderFor lens d) (nb : Nat) {bits s : Nat}
    (hs : codeLen lens s ≤ 8) (h : Begins lens bits.testBit s) :
    huffmanDecode bits d nb = some (Int.ofNat s, codeLen lens s) := by
  unfold huffmanDecode
  dsimp only
  rw [hd.hit _ (index_lt bits) s hs ((begins_index hs).mpr h), if_pos h.1]

/-- Without one the sentinel search decides. -/
theorem huffmanDecode_long (hd : DecoderFor lens d) (nb : Nat) {bits : Nat}
    (hno : ∀ s, codeLen lens s ≤ 8 → ¬ Begins lens bits.testBit s) :
    huffmanDecode bits d nb = searchLengths d (msbFirst bits.testBit 15) nb 7 9 := by
  have hrev : reverse16 (bits % 2 ^ 16) 15 = msbFirst bits.testBit 15 := by
    rw [reverse16_eq_msbFirst (Nat.mod_lt _ (by omega)) (by decide)]
    refine msbFirst_congr fun i hi => ?_
    rw [Nat.testBit_mod_two_pow, decide_eq_true (by omega)]
    rfl
  unfold huffmanDecode
  dsimp only
  rw [hd.miss _ (index_lt bits) fun s hs => by rw [begins_index hs]; exact hno s hs,
    if_neg (fun h => h rfl), hrev]
  rfl

/-- A symbol that is not lost has its index in `syms` for itself. -/
theorem alone_of_counts {s : Nat} (hcnt : ∀ l < codeLen lens s, codeCount lens l < 2 ^ 8)
    (hrank : rank lens s < byteCount lens (codeLen lens s)) : Alone lens s := by
  intro t hts ht heq
  unfold symPos at heq
  rcases Nat.lt_trichotomy (codeLen lens t) (codeLen lens s) with hlt | hlen | hgt
  · -- shorter codewords are all counted, and end before the first index of this length
    have hrank' := rank_lt ht
    have hmono := firstIndex_mono (byteCount lens) (show codeLen lens t + 1 ≤ codeLen lens s from hlt)
    rw [firstIndex, byteCount_eq (hcnt _ hlt)] at hmono
    omega
  · rw [hlen] at heq
    exact hts (rank_inj ht hlen (by omega))
  · have hmono := firstIndex_mono (byteCount lens) (show codeLen lens s + 1 ≤ codeLen lens t from hgt)
    rw [firstIndex] at hmono
    omega

/-- **A symbol that is not lost is decoded**, by the table or by the search. -/
theorem huffmanDecode_reached (hv : ValidLengths lens) (hd : DecoderFor lens d) (nb : Nat)
    {bits s : Nat} (h : Begins lens bits.testBit s) (hr : Reached lens s) :
    huffmanDecode bits d nb = some (Int.ofNat s, codeLen lens s) := by
  rcases Nat.lt_or_ge 8 (codeLen lens s) with hlong | hshort
  · obtain ⟨hcnt, hrank⟩ := hr.resolve_left (by simpa using hlong)
    have hrank : rank lens s < byteCount lens (codeLen lens s) := hrank
    have hno : ∀ t, codeLen lens t ≤ 8 → ¬ Begins lens bits.testBit t := by
      intro t ht hbegins
      rw [begins_unique hv.le_fifteen hbegins h] at ht
      omega
    have hle := codeLen_le hv.le_fifteen s
    obtain ⟨l, hl, hlW, hlow, _⟩ := begins_bounds hv.le_fifteen h
    obtain ⟨_, hhigh⟩ := (begins_iff hle h.1).mp h
    have hfirst : firstCode (byteCount lens) (codeLen lens s) =
        firstCode (codeCount lens) (codeLen lens s) :=
      firstCode_congr fun j hj => byteCount_eq (hcnt j hj)
    -- the sentinel of the symbol's length is the first one above the bits
    have hhit : msbFirst bits.testBit 15 < limit (byteCount lens) 15 (codeLen lens s) := by
      refine Nat.lt_of_lt_of_le hhigh (Nat.mul_le_mul_right _ ?_)
      rw [hfirst, code]
      omega
    have hbelow : ∀ j, 9 ≤ j → j < codeLen lens s →
        limit (byteCount lens) 15 j ≤ msbFirst bits.testBit 15 := by
      intro j _ hj
      exact Nat.le_trans (limit_le_limit fun i _ => byteCount_le lens i)
        (Nat.le_trans (limit_mono _ (by omega : j ≤ l) (by omega)) hlow)
    rw [huffmanDecode_long hd nb hno, searchLengths_hit hd nb hle hhit 7 (by omega)
      (by omega) (by omega) hbelow, hd.offset _ h.1 hle]
    -- at that length the 16-bit offset leads to the symbol's index
    have htop : msbFirst bits.testBit 15 >>> (15 - codeLen lens s) = code lens s := by
      have hdiv := msbFirst_div bits.testBit (codeLen lens s) (15 - codeLen lens s)
      rw [Nat.add_sub_cancel' hle] at hdiv
      rw [Nat.shiftRight_eq_div_pow, hdiv]
      exact h.2
    have hpos := hv.symPos_lt h.1
    have hcode := hv.code_lt h.1
    have hpow : 2 ^ codeLen lens s ≤ 2 ^ 15 := Nat.pow_le_pow_right (by omega) hle
    have hindex : ((firstIndex (byteCount lens) (codeLen lens s) + 2 ^ 16
        - firstCode (byteCount lens) (codeLen lens s)) % 2 ^ 16 + code lens s) % 2 ^ 16
        = symPos lens s := by
      rw [hfirst]
      unfold symPos code at *
      simp only [MAX_HUFFMAN_SYMBOLS] at hpos
      omega
    rw [htop, hindex, hd.syms s h.1 (alone_of_counts hcnt hrank)]
    rfl
  · exact huffmanDecode_short hd nb hshort h

/-- A lost codeword lies above the sentinel of its own length. -/
theorem limit_le_of_lost (hv : ValidLengths lens) {bits s : Nat}
    (h : Begins lens bits.testBit s) (hlost : ¬ Reached lens s) :
    limit (byteCount lens) 15 (codeLen lens s) ≤ msbFirst bits.testBit 15 := by
  have hle := codeLen_le hv.le_fifteen s
  obtain ⟨l, hl, hlW, hlow, _⟩ := begins_bounds hv.le_fifteen h
  by_cases hcnt : ∀ j < codeLen lens s, codeCount lens j < 2 ^ 8
  · -- its rank is beyond the byte count
    have hrank : byteCount lens (codeLen lens s) ≤ rank lens s := by
      by_contra hlt
      exact hlost (Or.inr ⟨hcnt, by rw [byteCount] at hlt; omega⟩)
    refine Nat.le_trans (Nat.mul_le_mul_right _ ?_) ((begins_iff hle h.1).mp h).1
    have hfirst : firstCode (byteCount lens) (codeLen lens s) =
        firstCode (codeCount lens) (codeLen lens s) :=
      firstCode_congr fun j hj => byteCount_eq (hcnt j hj)
    rw [code, hfirst]
    omega
  · -- a shorter length lost 256 codewords, and fewer than that are longer
    obtain ⟨L, hL, hmany⟩ : ∃ L < codeLen lens s, 2 ^ 8 ≤ codeCount lens L := by
      by_contra hno
      exact hcnt fun j hj => Nat.lt_of_not_le fun hge => hno ⟨j, hj, hge⟩
    have hlen := hv.length_le
    simp only [MAX_HUFFMAN_SYMBOLS] at hlen
    have hloss : byteCount lens L + 2 ^ 8 ≤ codeCount lens L := by
      rw [byteCount]
      omega
    have hdrop := limit_add_le (byteCount_le lens) hloss (show L ≤ l by omega) (by omega : l ≤ 15)
    have hindex := firstIndex_le_length lens (codeLen lens s + 1)
    have hmono := firstIndex_mono (codeCount lens) (show L + 1 ≤ codeLen lens s from hL)
    rw [firstIndex] at hindex hmono
    have hbyte := byteCount_le lens (codeLen lens s)
    have hspace : byteCount lens (codeLen lens s) * 2 ^ (15 - codeLen lens s)
        ≤ 2 ^ 8 * 2 ^ (15 - L) :=
      Nat.mul_le_mul (by omega) (Nat.pow_le_pow_right (by omega) (by omega))
    rw [hl] at hspace ⊢
    rw [limit_succ _ hlW]
    omega

/-- **A lost symbol is never decoded.** -/
theorem huffmanDecode_lost (hv : ValidLengths lens) (hd : DecoderFor lens d) (nb : Nat)
    {bits s : Nat} (h : Begins lens bits.testBit s) (hlost : ¬ Reached lens s) :
    huffmanDecode bits d nb ≠ some (Int.ofNat s, codeLen lens s) := by
  have hlong : 8 < codeLen lens s := Nat.lt_of_not_le fun hle => hlost (Or.inl hle)
  have hno : ∀ t, codeLen lens t ≤ 8 → ¬ Begins lens bits.testBit t := by
    intro t ht hbegins
    rw [begins_unique hv.le_fifteen hbegins h] at ht
    omega
  rw [huffmanDecode_long hd nb hno]
  intro hfound
  have hlt := searchLengths_found hd 7 (by omega) (by decide) hfound
  have hge := limit_le_of_lost hv h hlost
  omega

/-- Without a codeword the decoder gives up and leaves `*numBitsUsed` alone. -/
theorem huffmanDecode_none (hd : DecoderFor lens d) (nb : Nat) {bits : Nat}
    (hno : ∀ s, ¬ Begins lens bits.testBit s) : huffmanDecode bits d nb = some (-1, nb) := by
  have hge : limit (codeCount lens) 15 15 ≤ msbFirst bits.testBit 15 := by
    by_contra hlt
    obtain ⟨s, hs⟩ := exists_begins (Nat.lt_of_not_le hlt)
    exact hno s hs
  rw [huffmanDecode_long hd nb fun s _ => hno s]
  refine searchLengths_miss hd nb 7 (by omega) (by decide) fun j _ hj => ?_
  exact Nat.le_trans (limit_le_limit fun i _ => byteCount_le lens i)
    (Nat.le_trans (limit_mono _ (by omega) (Nat.le_refl 15)) hge)

end

/-! ## Agreement with the canonical code -/

/-- What the header promises of a call: the symbol whose codeword the bits begin
with and the length of that codeword, or `-1` and zero. -/
def DecodesAs (lens : List Nat) (bits : Nat) (result : Option (Int × Nat)) : Prop :=
  (∀ s, Begins lens bits.testBit s → result = some (Int.ofNat s, codeLen lens s)) ∧
    ((∀ s, ¬ Begins lens bits.testBit s) → result = some (-1, 0))

/-- **Where the decoder agrees with the canonical code.** For lengths that are not
over-subscribed and any bits: exactly when the symbol that the bits begin with is
not lost by the byte counters or, when they begin with no codeword, when
`*numBitsUsed` was zero before the call. -/
theorem huffmanDecode_agrees_iff (lens : List Nat) (bits numBitsUsed : Nat)
    (hv : ValidLengths lens) :
    DecodesAs lens bits (huffmanDecode bits (initHuffmanDecoder lens) numBitsUsed) ↔
      (∀ s, Begins lens bits.testBit s → Reached lens s) ∧
        ((∀ s, ¬ Begins lens bits.testBit s) → numBitsUsed = 0) := by
  have hd := initHuffmanDecoder_spec hv
  constructor
  · intro h
    refine ⟨fun s hs => ?_, fun hno => ?_⟩
    · by_contra hlost
      exact huffmanDecode_lost hv hd numBitsUsed hs hlost (h.1 s hs)
    · have hnone := (huffmanDecode_none hd numBitsUsed hno).symm.trans (h.2 hno)
      exact congrArg Prod.snd (Option.some.inj hnone)
  · intro h
    refine ⟨fun s hs => huffmanDecode_reached hv hd numBitsUsed hs (h.1 s hs), fun hno => ?_⟩
    rw [huffmanDecode_none hd numBitsUsed hno, h.2 hno]

theorem huffmanDecode_agrees_iff_threeSymbols :
    DecodesAs [1, 2, 2] 3 (huffmanDecode 3 (initHuffmanDecoder [1, 2, 2]) 7) ↔
      (∀ s, Begins [1, 2, 2] (Nat.testBit 3) s → Reached [1, 2, 2] s) ∧
        ((∀ s, ¬ Begins [1, 2, 2] (Nat.testBit 3) s) → 7 = 0) :=
  huffmanDecode_agrees_iff [1, 2, 2] 3 7 (by decide)

/-- 256 codewords of nine bits and one of a single bit: a complete code. -/
def manyNineBit : List Nat := List.replicate 256 9 ++ [1]

/-- None of the codewords of nine bits is found. -/
theorem huffmanDecode_manyNineBit {bits s : Nat} (hs : s < 256)
    (h : Begins manyNineBit bits.testBit s) (numBitsUsed : Nat) :
    huffmanDecode bits (initHuffmanDecoder manyNineBit) numBitsUsed = some (-1, numBitsUsed) := by
  have hv : ValidLengths manyNineBit := by decide +kernel
  have hlen : codeLen manyNineBit s = 9 := by
    unfold codeLen manyNineBit
    rw [List.getD_append _ _ _ _ (by rw [List.length_replicate]; exact hs),
      List.getD_replicate _ hs]
  have hd := initHuffmanDecoder_spec hv
  have hno : ∀ t, codeLen manyNineBit t ≤ 8 → ¬ Begins manyNineBit bits.testBit t := by
    intro t ht hbegins
    rw [begins_unique hv.le hbegins h] at ht
    omega
  -- they start with a one, and what is left of the code ends before that
  have hhalf : 2 ^ 14 ≤ msbFirst bits.testBit 15 := by
    have hlow := ((begins_iff (W := 15) (by omega) h.1).mp h).1
    have hfirst : firstCode (codeCount manyNineBit) 9 = 256 := by decide +kernel
    rw [code, hlen, hfirst] at hlow
    omega
  have hlimits : ∀ j < 7, limit (byteCount manyNineBit) 15 (9 + j) ≤ 2 ^ 14 := by decide +kernel
  rw [huffmanDecode_long hd numBitsUsed hno]
  refine searchLengths_miss hd numBitsUsed 7 (by decide) (by decide) fun j hj hj' => ?_
  have hlimit := hlimits (j - 9) (by omega)
  rw [Nat.add_sub_cancel' hj] at hlimit
  exact Nat.le_trans hlimit hhalf

/-- **Two disagreements.** The 256 codewords of nine bits are counted as none, so
that symbol `0` is not found; and where the bits begin with no codeword,
`*numBitsUsed` keeps the value it had. -/
theorem huffmanDecode_disagrees :
    (ValidLengths manyNineBit ∧ Begins manyNineBit (Nat.testBit 1) 0 ∧
      huffmanDecode 1 (initHuffmanDecoder manyNineBit) 0 = some (-1, 0) ∧
      ¬ DecodesAs manyNineBit 1 (huffmanDecode 1 (initHuffmanDecoder manyNineBit) 0)) ∧
    (ValidLengths [1] ∧ (∀ s, ¬ Begins [1] (Nat.testBit 1) s) ∧
      huffmanDecode 1 (initHuffmanDecoder [1]) 7 = some (-1, 7) ∧
      ¬ DecodesAs [1] 1 (huffmanDecode 1 (initHuffmanDecoder [1]) 7)) := by
  have hbegins : Begins manyNineBit (Nat.testBit 1) 0 := by
    unfold Begins
    decide +kernel
  have hmany := huffmanDecode_manyNineBit (by decide) hbegins 0
  have hone : huffmanDecode 1 (initHuffmanDecoder [1]) 7 = some (-1, 7) := by decide +kernel
  have hnone : ∀ s, ¬ Begins [1] (Nat.testBit 1) s := by
    intro s h
    have hs : s < 1 := codeLen_lt h.1
    obtain rfl : s = 0 := by omega
    exact absurd h.2 (by decide)
  refine ⟨⟨by decide +kernel, hbegins, hmany, fun h => ?_⟩,
    ⟨by decide, hnone, hone, fun h => ?_⟩⟩
  · exact absurd (hmany.symm.trans (h.1 0 hbegins)) (by simp)
  · exact absurd (hone.symm.trans (h.2 hnone)) (by simp)

end DevopsBroker.Compress
