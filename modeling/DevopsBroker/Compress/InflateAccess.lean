import DevopsBroker.Compress.InflateBounds

/-!
# What `processLiteralBackrefBlock` accesses

Each round of the loop is followed access by access: the entries of `litlen_tbl` and
`dist_tbl` that are looked up, and the bytes of the output slab that are stored or copied.
The log leaves nothing out: performing it on the slab gives what the slab holds after the
round. **`processLiteralBackrefBlock_safe`**: every access is inside of its table or its
slab, and a back reference is copied from below the byte that is written.

Mirroring notes vs the C source:
- Indices are integers, so that `outputBuf - dist` is not cut off at zero.
- `memcopy` loads eight bytes before it stores them; they are logged byte by byte.
- The decoders are those of any code lengths; `beyond` is what memory holds behind `syms`.
-/

namespace DevopsBroker.Compress

open DevopsBroker.Lib DevopsBroker.Io DevopsBroker.Lang

/-- One access. -/
inductive Access where
  | litlenTbl (index : Int)
  | distTbl (index : Int)
  | write (index : Int) (value : UInt8)
  | copy (source dest : Int)

/-- It is in bounds, and a copy goes upwards. -/
def Access.Safe : Access → Prop
  | .litlenTbl index => 0 ≤ index ∧ index < 29
  | .distTbl index => 0 ≤ index ∧ index < 30
  | .write index _ => 0 ≤ index ∧ index < INFLATE_OUTPUT_LENGTH
  | .copy source dest => 0 ≤ source ∧ source < dest ∧ dest < INFLATE_OUTPUT_LENGTH

/-- What it does to the slab. -/
def Access.perform (buffer : Mem) : Access → Mem
  | .litlenTbl _ => buffer
  | .distTbl _ => buffer
  | .write index value => Function.update buffer index.toNat value
  | .copy source dest => Function.update buffer dest.toNat (buffer source.toNat)

/-- Accesses in a row. -/
def replay (accesses : List Access) (buffer : Mem) : Mem := accesses.foldl Access.perform buffer

/-! ## The accesses of a round -/

/-- The accesses of `moveBytes`. -/
def moveAccesses (source dest : Int) (k : Nat) : List Access :=
  (List.range k).map fun i : Nat => .copy (source + i) (dest + i)

/-- The accesses of `copyChunks`. -/
def chunkAccesses (k : Nat) : Nat → Int → Int → List Access
  | 0, _, _ => []
  | n + 1, source, dest => moveAccesses source dest k ++ chunkAccesses k n (source + k) (dest + k)

/-- The accesses of `memcopy`. -/
def memcopyAccesses (source dest : Int) (numBytes : Nat) : List Access :=
  let eights := numBytes / 8
  let source' := source + 8 * eights
  let dest' := dest + 8 * eights
  let numBytes := numBytes % 8
  chunkAccesses 8 eights source dest ++
    if 4 ≤ numBytes then
      moveAccesses source' dest' 4 ++ chunkAccesses 1 (numBytes - 4) (source' + 4) (dest' + 4)
    else chunkAccesses 1 numBytes source' dest'

/-- The accesses of `lz77_output_backref`. -/
def lz77Accesses (ob : OutputBuffer) (dist length : Nat) : List Access :=
  chunkAccesses 1 length (ob.length - dist) ob.length

/-- The accesses of `output_backref64`. -/
def backref64Accesses (ob : OutputBuffer) (dist length : Nat) : List Access :=
  if length > dist then lz77Accesses ob dist length
  else memcopyAccesses (ob.length - dist) ob.length length

/-- The accesses of `outputBackref`. -/
def outputBackrefAccesses (ob : OutputBuffer) (dist length : Nat) : List Access :=
  if roundUp8 length ≤ INFLATE_OUTPUT_LENGTH - ob.length then backref64Accesses ob dist length
  else if length ≤ INFLATE_OUTPUT_LENGTH - ob.length then lz77Accesses ob dist length
  else []

/-- The accesses of `backrefRound`. -/
def backrefAccesses (distDecoder : HuffmanDecoder) (inflate : Inflate) (litlen : Int)
    (numBitsUsed : Nat) : List Access :=
  let ib := inflate.inputBuffer
  let totalBitsUsed := numBitsUsed
  let (baseLength, extraBits) := litlenTbl.getD (litlen.toNat - 257) (0, 0)
  let length := baseLength + (ib.bits &&& (2 ^ extraBits - 1))
  let ib := { ib with bits := ib.bits >>> extraBits }
  let totalBitsUsed := totalBitsUsed + extraBits
  .litlenTbl (litlen - 257) ::
    match huffmanDecode ib.bits distDecoder numBitsUsed with
    | none => []
    | some (distSymbol, numBitsUsed) =>
      let ib := { ib with bits := ib.bits >>> numBitsUsed }
      let totalBitsUsed := totalBitsUsed + numBitsUsed
      if distSymbol < 0 ∨ distSymbol > 29 then []
      else
        let (baseDist, extraBits) := distTbl.getD distSymbol.toNat (0, 0)
        let dist := baseDist + (ib.bits &&& (2 ^ extraBits - 1))
        let ib := { ib with bits := ib.bits >>> extraBits }
        let totalBitsUsed := totalBitsUsed + extraBits
        .distTbl distSymbol ::
          match advanceNumBits ib (totalBitsUsed % 2 ^ 32) with
          | (false, _) => []
          | (true, _) =>
            if dist > inflate.outputBuffer.length then []
            else outputBackrefAccesses inflate.outputBuffer dist length

/-- The accesses of `literalBackrefRound`. -/
def roundAccesses (mem : Mem) (litlenDecoder distDecoder : HuffmanDecoder) (inflate : Inflate)
    (numBitsUsed : Nat) : List Access :=
  let ib := getNextBits mem inflate.inputBuffer
  match huffmanDecode ib.bits litlenDecoder numBitsUsed with
  | none => []
  | some (litlen, numBitsUsed) =>
    let ib := { ib with bits := ib.bits >>> numBitsUsed }
    let inflate := { inflate with inputBuffer := ib }
    if litlen < 0 ∨ litlen > 285 then []
    else if litlen ≤ 255 then
      match advanceNumBits ib (numBitsUsed % 2 ^ 32) with
      | (false, _) => []
      | (true, _) =>
        let ob := inflate.outputBuffer
        if ob.length = INFLATE_OUTPUT_LENGTH then []
        else [.write ob.length (UInt8.ofNat litlen.toNat)]
    else if litlen = 256 then []
    else backrefAccesses distDecoder inflate litlen numBitsUsed

/-! ## Copies -/

theorem replay_append (xs ys : List Access) (buffer : Mem) :
    replay (xs ++ ys) buffer = replay ys (replay xs buffer) := List.foldl_append

/-- A copy of `k` bytes that goes upwards, byte by byte. -/
theorem replay_moveAccesses (k : Nat) {source dest : Nat} (h : source + k ≤ dest) (buffer : Mem) :
    replay (moveAccesses source dest k) buffer = moveBytes buffer source dest k := by
  induction k with
  | zero => rw [moveBytes_zero]; rfl
  | succ k ih =>
    rw [moveAccesses, List.range_succ, List.map_append, replay_append, ← moveAccesses,
      ih (by omega), ← moveBytes_moveBytes buffer (Or.inl h)]
    generalize moveBytes buffer source dest k = buffer
    show Function.update buffer ((dest : Int) + k).toNat (buffer ((source : Int) + k).toNat) = _
    rw [← Int.natCast_add, ← Int.natCast_add, Int.toNat_natCast, Int.toNat_natCast]
    funext a
    rw [moveBytes]
    by_cases ha : a = dest + k
    · rw [ha, Function.update_self, if_pos (by omega), Nat.sub_self, Nat.add_zero]
    · rw [Function.update_of_ne ha, if_neg (by omega)]

theorem replay_chunkAccesses {k : Nat} (n : Nat) :
    ∀ {source dest : Nat} (buffer : Mem), source + k ≤ dest →
      replay (chunkAccesses k n source dest) buffer = copyChunks k n source dest buffer := by
  induction n with
  | zero => exact fun _ _ => rfl
  | succ n ih =>
    intro source dest buffer h
    rw [chunkAccesses, replay_append, replay_moveAccesses k h, ← Int.natCast_add,
      ← Int.natCast_add, ih _ (by omega), copyChunks]

theorem replay_memcopyAccesses {source dest numBytes : Nat} (h : source + numBytes ≤ dest)
    (buffer : Mem) :
    replay (memcopyAccesses source dest numBytes) buffer = memcopy buffer source dest numBytes := by
  have hdiv := Nat.div_add_mod numBytes 8
  unfold memcopyAccesses memcopy
  dsimp only
  have heights : replay (chunkAccesses 8 (numBytes / 8) source dest) buffer =
      copyChunks 8 (numBytes / 8) source dest buffer := by
    rcases Nat.eq_zero_or_pos (numBytes / 8) with hzero | hpos
    · rw [hzero]
      rfl
    · exact replay_chunkAccesses _ buffer (by omega)
  have hsource : (source : Int) + 8 * ((numBytes / 8 : Nat) : Int) =
      ((source + 8 * (numBytes / 8) : Nat) : Int) := by omega
  have hdest : (dest : Int) + 8 * ((numBytes / 8 : Nat) : Int) =
      ((dest + 8 * (numBytes / 8) : Nat) : Int) := by omega
  rw [replay_append, heights, hsource, hdest]
  have hones {n source dest : Nat} (hn : source + n ≤ dest) (buffer : Mem) :
      replay (chunkAccesses 1 n source dest) buffer = copyChunks 1 n source dest buffer := by
    cases n with
    | zero => rfl
    | succ n => exact replay_chunkAccesses _ buffer (by omega)
  split
  next h4 =>
    rw [replay_append, replay_moveAccesses 4 (by omega)]
    exact hones (by omega) _
  next h4 => exact hones (by omega) _

/-- The copies of `numBytes` bytes in a row. -/
def CopiesOf (source dest : Int) (numBytes : Nat) (access : Access) : Prop :=
  ∃ i : Nat, i < numBytes ∧ access = .copy (source + i) (dest + i)

theorem copiesOf_moveAccesses {source dest : Int} {k : Nat} {access : Access}
    (h : access ∈ moveAccesses source dest k) : CopiesOf source dest k access := by
  obtain ⟨i, hi, rfl⟩ := List.mem_map.mp h
  exact ⟨i, List.mem_range.mp hi, rfl⟩

/-- Copies further on. -/
theorem CopiesOf.shift {source dest : Int} {n numBytes : Nat} {access : Access} (k : Nat)
    (h : CopiesOf (source + k) (dest + k) n access) (hle : k + n ≤ numBytes) :
    CopiesOf source dest numBytes access := by
  obtain ⟨i, hi, rfl⟩ := h
  refine ⟨k + i, by omega, ?_⟩
  rw [Int.natCast_add, Int.add_assoc, Int.add_assoc]

theorem copiesOf_chunkAccesses {k n : Nat} {access : Access} :
    ∀ {source dest : Int}, access ∈ chunkAccesses k n source dest →
      CopiesOf source dest (k * n) access := by
  induction n with
  | zero => exact fun h => absurd h List.not_mem_nil
  | succ n ih =>
    intro source dest h
    rw [Nat.mul_succ]
    rcases List.mem_append.mp h with h | h
    · obtain ⟨i, hi, rfl⟩ := copiesOf_moveAccesses h
      exact ⟨i, by omega, rfl⟩
    · exact (ih h).shift k (by omega)

theorem copiesOf_memcopyAccesses {source dest : Int} {numBytes : Nat} {access : Access}
    (h : access ∈ memcopyAccesses source dest numBytes) :
    CopiesOf source dest numBytes access := by
  have hdiv := Nat.div_add_mod numBytes 8
  unfold memcopyAccesses at h
  dsimp only at h
  have heights : (8 : Int) * ((numBytes / 8 : Nat) : Int) = ((8 * (numBytes / 8) : Nat) : Int) := by
    omega
  rw [heights] at h
  rcases List.mem_append.mp h with h | h
  · obtain ⟨i, hi, rfl⟩ := copiesOf_chunkAccesses h
    exact ⟨i, by omega, rfl⟩
  · split at h
    next h4 =>
      rcases List.mem_append.mp h with h | h
      · exact (copiesOf_moveAccesses h).shift _ (by omega)
      · exact ((copiesOf_chunkAccesses h).shift 4 (Nat.le_refl _)).shift _ (by omega)
    next h4 => exact (copiesOf_chunkAccesses h).shift _ (by omega)

/-! ## Back references are safe -/

theorem CopiesOf.safe {source dest : Int} {numBytes : Nat} {access : Access}
    (h : CopiesOf source dest numBytes access) (hsource : 0 ≤ source) (hbelow : source < dest)
    (hroom : dest + numBytes ≤ INFLATE_OUTPUT_LENGTH) : access.Safe := by
  obtain ⟨i, hi, rfl⟩ := h
  refine ⟨by omega, by omega, ?_⟩
  push_cast at hroom ⊢
  omega

/-- A back reference that fits, to a byte that is there. -/
theorem outputBackrefAccesses_safe {ob : OutputBuffer} {dist length : Nat} (hpos : 0 < dist)
    (hdist : dist ≤ ob.length) (hfits : ob.length ≤ INFLATE_OUTPUT_LENGTH) :
    ∀ access ∈ outputBackrefAccesses ob dist length, access.Safe := by
  intro access h
  have hcopies : length ≤ INFLATE_OUTPUT_LENGTH - ob.length →
      CopiesOf (ob.length - dist) ob.length length access → access.Safe :=
    fun hroom hcopies => hcopies.safe (by omega) (by omega) (by omega)
  have hlz77 : access ∈ lz77Accesses ob dist length →
      CopiesOf (ob.length - dist) ob.length length access := by
    intro h
    have hone := copiesOf_chunkAccesses h
    rwa [Nat.one_mul] at hone
  unfold outputBackrefAccesses roundUp8 at h
  split at h
  next hroom =>
    refine hcopies (by omega) ?_
    unfold backref64Accesses at h
    split at h
    next _ => exact hlz77 h
    next _ => exact copiesOf_memcopyAccesses h
  next _ =>
    split at h
    next hroom => exact hcopies hroom (hlz77 h)
    next _ => exact absurd h List.not_mem_nil

/-- The log of a back reference is what it does to the slab. -/
theorem replay_outputBackrefAccesses {ob ob' : OutputBuffer} {dist length : Nat}
    (hpos : 0 < dist) (hdist : dist ≤ ob.length) (hrun : outputBackref ob dist length = some ob') :
    replay (outputBackrefAccesses ob dist length) ob.buffer = ob'.buffer := by
  have hsource : (ob.length : Int) - dist = ((ob.length - dist : Nat) : Int) := by omega
  have hlz77 : replay (lz77Accesses ob dist length) ob.buffer = lz77OutputBackref ob dist length := by
    unfold lz77Accesses lz77OutputBackref
    rw [hsource]
    exact replay_chunkAccesses length ob.buffer (by omega)
  unfold outputBackref at hrun
  unfold outputBackrefAccesses
  split at hrun
  next hroom =>
    rw [if_pos hroom, ← Option.some.inj hrun]
    unfold backref64Accesses outputBackref64
    split
    next _ => exact hlz77
    next _ =>
      rw [hsource]
      exact replay_memcopyAccesses (by omega) ob.buffer
  next hroom =>
    split at hrun
    next hfits =>
      rw [if_neg hroom, if_pos hfits, ← Option.some.inj hrun]
      exact hlz77
    next _ => cases hrun

/-- Without room, nothing is copied. -/
theorem outputBackrefAccesses_none {ob : OutputBuffer} {dist length : Nat}
    (h : outputBackref ob dist length = none) : outputBackrefAccesses ob dist length = [] := by
  unfold outputBackref at h
  unfold outputBackrefAccesses
  split at h
  next _ => cases h
  next hroom =>
    split at h
    next _ => cases h
    next hfits => rw [if_neg hroom, if_neg hfits]

/-! ## A round -/

/-- Every distance symbol stands for a distance. -/
theorem distTbl_pos {distSymbol : Int} (h : ¬ (distSymbol < 0 ∨ distSymbol > 29)) :
    0 < (distTbl.getD distSymbol.toNat (0, 0)).1 := by
  have hall : ∀ i < 30, 0 < (distTbl.getD i (0, 0)).1 := by decide
  exact hall _ (by omega)

theorem backrefAccesses_safe {distDecoder : HuffmanDecoder} {inflate : Inflate} {litlen : Int}
    {numBitsUsed : Nat} (h : inflate.Fits) (hlow : 257 ≤ litlen) (hhigh : litlen ≤ 285) :
    ∀ access ∈ backrefAccesses distDecoder inflate litlen numBitsUsed, access.Safe := by
  intro access haccess
  unfold backrefAccesses at haccess
  generalize litlenTbl.getD (litlen.toNat - 257) (0, 0) = lengthEntry at haccess
  rcases List.mem_cons.mp haccess with rfl | haccess
  · exact ⟨by omega, by omega⟩
  split at haccess
  next _ => exact absurd haccess List.not_mem_nil
  next distSymbol _ _ =>
    split at haccess
    next _ => exact absurd haccess List.not_mem_nil
    next hsymbol =>
      have hpos := distTbl_pos hsymbol
      generalize distTbl.getD distSymbol.toNat (0, 0) = distEntry at hpos haccess
      rcases List.mem_cons.mp haccess with rfl | haccess
      · exact ⟨by omega, by omega⟩
      split at haccess
      next _ => exact absurd haccess List.not_mem_nil
      next _ =>
        split at haccess
        next _ => exact absurd haccess List.not_mem_nil
        next hdist =>
          exact outputBackrefAccesses_safe (by omega) (by omega) h _ haccess

theorem backrefRound_replay {distDecoder : HuffmanDecoder} {inflate : Inflate} {litlen : Int}
    {numBitsUsed : Nat} {round : Round}
    (hrun : backrefRound distDecoder inflate litlen.toNat numBitsUsed = some round) :
    replay (backrefAccesses distDecoder inflate litlen numBitsUsed) inflate.outputBuffer.buffer =
      round.inflate.outputBuffer.buffer := by
  unfold backrefRound at hrun
  unfold backrefAccesses
  generalize litlenTbl.getD (litlen.toNat - 257) (0, 0) = lengthEntry at hrun ⊢
  obtain ⟨⟨distSymbol, used⟩, hdecode, hrun⟩ := Option.bind_eq_some_iff.mp hrun
  have hpos := fun hsymbol => @distTbl_pos distSymbol hsymbol
  rcases hdist : distTbl.getD distSymbol.toNat (0, 0) with ⟨baseDist, distBits⟩
  rw [hdist] at hpos
  simp only [hdist] at hrun
  simp only [hdecode, hdist]
  split at hrun
  next hsymbol =>
    rw [if_pos hsymbol, ← Option.some.inj hrun]
    rfl
  next hsymbol =>
    rw [if_neg hsymbol]
    generalize advanceNumBits _ _ = advanced at hrun ⊢
    obtain ⟨advanced, ib⟩ := advanced
    cases advanced with
    | false =>
      rw [← Option.some.inj hrun]
      rfl
    | true =>
      dsimp only at hrun ⊢
      split at hrun
      next hdist =>
        rw [← Option.some.inj hrun]
        rw [if_pos hdist]
        rfl
      next hdist =>
        rw [if_neg hdist]
        split at hrun
        next hnone =>
          rw [← Option.some.inj hrun, outputBackrefAccesses_none hnone]
          rfl
        next ob hob =>
          rw [← Option.some.inj hrun]
          have hbase := hpos hsymbol
          exact replay_outputBackrefAccesses (by omega) (Nat.le_of_not_lt hdist) hob

/-- The accesses of a round are in bounds. -/
theorem roundAccesses_safe {mem : Mem} {litlenDecoder distDecoder : HuffmanDecoder}
    {inflate : Inflate} {numBitsUsed : Nat} (h : inflate.Fits) :
    ∀ access ∈ roundAccesses mem litlenDecoder distDecoder inflate numBitsUsed, access.Safe := by
  intro access haccess
  unfold roundAccesses at haccess
  dsimp only at haccess
  split at haccess
  next _ => exact absurd haccess List.not_mem_nil
  next litlen used _ =>
    split at haccess
    next _ => exact absurd haccess List.not_mem_nil
    next hsymbol =>
      split at haccess
      next _ =>
        split at haccess
        next _ => exact absurd haccess List.not_mem_nil
        next _ =>
          split at haccess
          next _ => exact absurd haccess List.not_mem_nil
          next hnotFull =>
            -- a literal goes behind what is there
            obtain rfl := List.mem_singleton.mp haccess
            unfold Inflate.Fits at h
            exact ⟨by omega, by omega⟩
      next _ =>
        split at haccess
        next _ => exact absurd haccess List.not_mem_nil
        next _ => exact backrefAccesses_safe (by exact h) (by omega) (by omega) _ haccess

/-- **The log of a round is all that it does to the slab.** -/
theorem literalBackrefRound_replay {mem : Mem} {litlenDecoder distDecoder : HuffmanDecoder}
    {inflate : Inflate} {numBitsUsed : Nat} {round : Round}
    (hrun : literalBackrefRound mem litlenDecoder distDecoder inflate numBitsUsed = some round) :
    replay (roundAccesses mem litlenDecoder distDecoder inflate numBitsUsed)
      inflate.outputBuffer.buffer = round.inflate.outputBuffer.buffer := by
  unfold literalBackrefRound at hrun
  unfold roundAccesses
  obtain ⟨⟨litlen, used⟩, hdecode, hrun⟩ := Option.bind_eq_some_iff.mp hrun
  dsimp only at hrun ⊢
  rw [hdecode]
  dsimp only
  split at hrun
  next hsymbol =>
    rw [if_pos hsymbol, ← Option.some.inj hrun]
    rfl
  next hsymbol =>
    rw [if_neg hsymbol]
    split at hrun
    next hliteral =>
      rw [if_pos hliteral]
      generalize advanceNumBits _ _ = advanced at hrun ⊢
      obtain ⟨advanced, ib⟩ := advanced
      cases advanced with
      | false =>
        rw [← Option.some.inj hrun]
        rfl
      | true =>
        dsimp only at hrun ⊢
        split at hrun
        next hfull =>
          rw [← Option.some.inj hrun, if_pos hfull]
          rfl
        next hfull =>
          rw [← Option.some.inj hrun, if_neg hfull]
          rfl
    next hliteral =>
      rw [if_neg hliteral]
      split at hrun
      next hend =>
        rw [if_pos hend]
        split at hrun
        next _ =>
          rw [← Option.some.inj hrun]
          rfl
        next _ =>
          rw [← Option.some.inj hrun]
          rfl
      next hend =>
        rw [if_neg hend]
        exact backrefRound_replay hrun

/-! ## Every round of every call -/

/-- What memory holds behind `syms`. -/
def HuffmanDecoder.withBeyond (decoder : HuffmanDecoder) (beyond : Array Nat) : HuffmanDecoder :=
  { decoder with syms := decoder.syms ++ beyond }

/-- The states in which the loop starts a round, with `numBitsUsed`. -/
inductive StartsRound (mem : Mem) (litlenDecoder distDecoder : HuffmanDecoder)
    (inflate₀ : Inflate) (numBitsUsed₀ : Nat) : Inflate → Nat → Prop where
  | first : StartsRound mem litlenDecoder distDecoder inflate₀ numBitsUsed₀ inflate₀ numBitsUsed₀
  | next {inflate inflate' : Inflate} {numBitsUsed numBitsUsed' : Nat} :
      StartsRound mem litlenDecoder distDecoder inflate₀ numBitsUsed₀ inflate numBitsUsed →
      literalBackrefRound mem litlenDecoder distDecoder inflate numBitsUsed =
        some (.next inflate' numBitsUsed') →
      StartsRound mem litlenDecoder distDecoder inflate₀ numBitsUsed₀ inflate' numBitsUsed'

theorem StartsRound.fits {mem : Mem} {litlenDecoder distDecoder : HuffmanDecoder}
    {inflate₀ inflate : Inflate} {numBitsUsed₀ numBitsUsed : Nat} (h : inflate₀.Fits)
    (hstart : StartsRound mem litlenDecoder distDecoder inflate₀ numBitsUsed₀ inflate numBitsUsed) :
    inflate.Fits := by
  induction hstart with
  | first => exact h
  | next _ hround ih => exact (literalBackrefRound_extends hround).fits ih

/-- A round that starts and ends inside of the slab, with nothing but safe accesses. -/
structure RoundSafe (mem : Mem) (litlenDecoder distDecoder : HuffmanDecoder) (inflate : Inflate)
    (numBitsUsed : Nat) : Prop where
  starts : inflate.outputBuffer.length ≤ INFLATE_OUTPUT_LENGTH
  accesses : ∀ access ∈ roundAccesses mem litlenDecoder distDecoder inflate numBitsUsed, access.Safe
  ends : ∀ round, literalBackrefRound mem litlenDecoder distDecoder inflate numBitsUsed = some round →
    round.inflate.outputBuffer.length ≤ INFLATE_OUTPUT_LENGTH ∧
      round.inflate.outputBuffer.buffer =
        replay (roundAccesses mem litlenDecoder distDecoder inflate numBitsUsed)
          inflate.outputBuffer.buffer

theorem roundSafe {mem : Mem} {litlenDecoder distDecoder : HuffmanDecoder} {inflate : Inflate}
    (h : inflate.Fits) (numBitsUsed : Nat) :
    RoundSafe mem litlenDecoder distDecoder inflate numBitsUsed where
  starts := h
  accesses := roundAccesses_safe h
  ends := by
    intro round hround
    exact ⟨(literalBackrefRound_extends hround).fits h, (literalBackrefRound_replay hround).symm⟩

/-- **Every round of `processLiteralBackrefBlock` is safe**, with the decoders of any code
lengths, and what it returns is inside of the slab. -/
theorem processLiteralBackrefBlock_safe (mem : Mem) (garbage : Nat → Nat) {inflate : Inflate}
    (h : inflate.outputBuffer.length ≤ 32768) (litlenLengths distLengths : List Nat)
    (litlenBeyond distBeyond : Array Nat) :
    let litlenDecoder := (initHuffmanDecoder litlenLengths).withBeyond litlenBeyond
    let distDecoder := (initHuffmanDecoder distLengths).withBeyond distBeyond
    (∀ inflate' numBitsUsed, StartsRound mem litlenDecoder distDecoder inflate
        (garbage inflate.inputBuffer.bitPos) inflate' numBitsUsed →
      RoundSafe mem litlenDecoder distDecoder inflate' numBitsUsed) ∧
    ∀ ok inflate', processLiteralBackrefBlock mem garbage inflate litlenDecoder distDecoder =
      some (ok, inflate') → inflate'.outputBuffer.length ≤ 32768 :=
  ⟨fun _ _ hstart => roundSafe (hstart.fits h) _, fun _ _ hrun => (literalBackrefLoop_extends _ hrun).fits h⟩

/-- A slab that is full but for one byte, and a code with two symbols. -/
theorem processLiteralBackrefBlock_safe_nearlyFull :
    let start : Inflate :=
      { inputBuffer := initInputBuffer ⟨0, 4096, 0, 0⟩ [] 2
        outputBuffer := ⟨fun _ => 0, 32767⟩
        status := .success }
    let litlenDecoder := (initHuffmanDecoder [1, 1]).withBeyond #[]
    (∀ inflate' numBitsUsed, StartsRound (fun _ => 0) litlenDecoder litlenDecoder start 0 inflate'
        numBitsUsed →
      RoundSafe (fun _ => 0) litlenDecoder litlenDecoder inflate' numBitsUsed) ∧
    ∀ ok inflate', processLiteralBackrefBlock (fun _ => 0) (fun _ => 0) start litlenDecoder
      litlenDecoder = some (ok, inflate') → inflate'.outputBuffer.length ≤ 32768 :=
  processLiteralBackrefBlock_safe (fun _ => 0) (fun _ => 0) (by decide) [1, 1] [1, 1] #[] #[]

end DevopsBroker.Compress
