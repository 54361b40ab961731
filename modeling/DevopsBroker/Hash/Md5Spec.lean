import DevopsBroker.Hash.Md5
import DevopsBroker.Lib.BlockHash

/-!
# `md5` and `md5Stream` against RFC 1321

`md5Body` is the iterated hash of `Lib.BlockHash`, over the compression function of
RFC 1321 and with the value that the caller stores as the trailer (`md5Body_eq`): the
four branches for the last block make the padding. What follows from it:

- The trailer of `md5` is the length in bytes, and RFC 1321 wants it in bits
  (**`md5_digest_iff`**).
- A stream of buffers has the digest of the whole message, as long as no buffer but the
  last is empty (**`stream_md5_iff`**): `md5Stream` looks at the length after the first
  block only.
-/

namespace DevopsBroker.Hash

open DevopsBroker.Lang
open DevopsBroker.Lib

/-- The compression function of RFC 1321, of a block as a list of bytes. -/
def md5Compress (state : Md5State) (block : List UInt8) : Md5State :=
  MD5Transform state fun i => block.getD i 0

/-- Only the first 64 bytes of a block count. -/
theorem MD5Transform_congr (state : Md5State) {block block' : Mem}
    (h : ∀ i < 64, block i = block' i) : MD5Transform state block = MD5Transform state block' := by
  have hindex : ∀ t ∈ md5Steps, t.k < 16 := by decide
  have hdecode : ∀ i < 16, decode block i = decode block' i := by
    intro i hi
    unfold decode
    dsimp only
    rw [h (4 * i) (by omega), h (4 * i + 1) (by omega), h (4 * i + 2) (by omega),
      h (4 * i + 3) (by omega)]
  have hsteps : md5Steps.foldl (Md5Step.run (decode block)) state =
      md5Steps.foldl (Md5Step.run (decode block')) state := by
    refine List.foldl_ext _ _ _ ?_
    intro v t ht
    unfold Md5Step.run
    rw [hdecode t.k (hindex t ht)]
  unfold MD5Transform
  rw [hsteps]

/-- The transformation compresses the block it is given. -/
theorem md5Transform_eq_compress (state : Md5State) {block : Mem} {bytes : List UInt8}
    (h : ∀ i < 64, block i = bytes.getD i 0) :
    md5Transform state block = md5Compress state bytes := by
  rw [md5Transform_eq, md5Compress]
  exact MD5Transform_congr state h

theorem getD_drop (bytes : List UInt8) (n i : Nat) :
    (bytes.drop n).getD i 0 = bytes.getD (n + i) 0 := by
  rw [List.getD_eq_getElem?_getD, List.getElem?_drop, List.getD_eq_getElem?_getD]

theorem getD_take (bytes : List UInt8) {n i : Nat} (h : i < n) :
    (bytes.take n).getD i 0 = bytes.getD i 0 := by
  rw [List.getD_eq_getElem?_getD, List.getElem?_take, if_pos h, List.getD_eq_getElem?_getD]

/-- One block at some offset of the buffer. -/
theorem md5Transform_drop (state : Md5State) (buffer : List UInt8) (offset : Nat) :
    md5Transform state (fun i => buffer.getD (offset + i) 0) =
      md5Compress state ((buffer.drop offset).take 64) := by
  refine md5Transform_eq_compress state ?_
  intro i hi
  rw [getD_take _ hi, getD_drop]

theorem readBuffer_eq {buffer : List UInt8} {offset numBytes : Nat}
    (h : offset + numBytes ≤ buffer.length) :
    readBuffer buffer offset numBytes = .ok fun i => buffer.getD (offset + i) 0 := by
  rw [readBuffer, if_pos h]

/-- The block loop leaves 64 bytes at most. -/
theorem md5Blocks_eq (buffer : List UInt8) (length : Nat) :
    ∀ (state : Md5State) (offset : Nat), offset + length ≤ buffer.length →
      ∃ n, n * 64 ≤ length ∧ length - n * 64 ≤ 64 ∧
        md5Blocks state buffer offset length =
          .ok (absorb md5Compress 64 n state (buffer.drop offset), offset + n * 64,
            length - n * 64) := by
  induction length using Nat.strong_induction_on with
  | _ length ih =>
    intro state offset hlength
    rw [md5Blocks]
    by_cases h : 64 < length
    · -- one block more than the rest of the loop absorbs
      obtain ⟨n, hn, hrest, hrun⟩ := ih (length - 64) (by omega)
        (md5Compress state ((buffer.drop offset).take 64)) (offset + 64) (by omega)
      refine ⟨n + 1, by omega, by omega, ?_⟩
      rw [if_pos h, readBuffer_eq (by omega)]
      dsimp only
      rw [md5Transform_drop, hrun, absorb_succ, List.drop_drop, Nat.succ_mul,
        show offset + 64 + n * 64 = offset + (n * 64 + 64) by omega,
        show length - 64 - n * 64 = length - (n * 64 + 64) by omega]
    · refine ⟨0, by omega, by omega, ?_⟩
      rw [if_neg h, absorb_zero, Nat.zero_mul, Nat.add_zero, Nat.sub_zero]

/-- The bytes of a padded message. -/
theorem getD_padded (rest trailer : List UInt8) (zeros i : Nat) :
    (rest ++ 0x80 :: (List.replicate zeros 0 ++ trailer)).getD i 0 =
      if i < rest.length then rest.getD i 0
      else if i = rest.length then 0x80
      else if i < rest.length + 1 + zeros then 0
      else trailer.getD (i - (rest.length + 1 + zeros)) 0 := by
  rw [List.getD_eq_getElem?_getD]
  split
  next h => rw [List.getElem?_append_left h, List.getD_eq_getElem?_getD]
  next h =>
    rw [List.getElem?_append_right (by omega)]
    split
    next heq => rw [heq, Nat.sub_self]; rfl
    next hne =>
      -- behind the one bit: zeros, then the trailer
      obtain ⟨j, hj⟩ : ∃ j, i - rest.length = j + 1 := ⟨i - rest.length - 1, by omega⟩
      rw [hj, List.getElem?_cons_succ]
      split
      next hzero =>
        rw [List.getElem?_append_left (by rw [List.length_replicate]; omega),
          List.getElem?_replicate, if_pos (by omega)]
        rfl
      next hlast =>
        rw [List.getElem?_append_right (by rw [List.length_replicate]; omega),
          List.length_replicate, List.getD_eq_getElem?_getD,
          show j - zeros = i - (rest.length + 1 + zeros) by omega]

/-! ## The blocks that are made up -/

/-- The rest, the one bit and zeros, up to where both end. -/
theorem padded_eq {rest : List UInt8} {source : Mem}
    (hsource : ∀ i < rest.length, source i = rest.getD i 0) (message : Mem) (trailer : UInt8)
    {i bound zeros : Nat} (hbound : i < bound) (hzeros : i < rest.length + 1 + zeros) :
    (if rest.length + 1 ≤ i ∧ i < bound then 0
      else if i = rest.length then ONE_BIT_VALUE
      else if i < rest.length then source i else message i) =
      if i < rest.length then rest.getD i 0
      else if i = rest.length then 0x80
      else if i < rest.length + 1 + zeros then 0 else trailer := by
  rcases Nat.lt_trichotomy i rest.length with hlt | heq | hgt
  · rw [if_neg (by omega), if_neg (by omega), if_pos hlt, if_pos hlt, hsource i hlt]
  · rw [if_neg (by omega), if_pos heq, if_neg (by omega), if_pos heq]
    rfl
  · rw [if_pos ⟨by omega, hbound⟩, if_neg (by omega), if_neg (by omega), if_pos hzeros]

/-- A last block with room for the length. -/
theorem shortBlock_eq {rest : List UInt8} {source message : Mem} (msgLength : Nat)
    (hrest : rest.length < 56) (hsource : ∀ i < rest.length, source i = rest.getD i 0) :
    ∀ i < 64, storeQuadword (meminit (storeByte (copyObject source message rest.length)
        rest.length ONE_BIT_VALUE) (rest.length + 1) (64 - (rest.length + 1))) 56 msgLength i =
      (rest ++ padding 64 rest.length (quadword msgLength)).getD i 0 := by
  intro i hi
  have hzeros : (64 - (rest.length + 1 + (quadword msgLength).length) % 64) % 64 =
      55 - rest.length := by
    rw [quadword_length]
    omega
  unfold padding
  rw [hzeros, getD_padded, meminit_eq]
  unfold storeQuadword zeroBytes storeByte copyObject
  by_cases hlast : 56 ≤ i
  · rw [if_pos ⟨hlast, hi⟩, if_neg (by omega), if_neg (by omega), if_neg (by omega),
      show rest.length + 1 + (55 - rest.length) = 56 by omega]
  rw [if_neg (by omega)]
  -- in front of the length: the rest, the one bit, zeros
  exact padded_eq hsource message _ (by omega) (by omega)

theorem clearMessage_eq (message : Mem) (length : Nat) :
    clearMessage message length = fun i => if length ≤ i ∧ i < 64 then 0 else message i := by
  fun_induction clearMessage message length with
  | case1 message length h ih =>
    rw [ih]
    funext i
    unfold storeByte
    by_cases heq : i = length
    · rw [if_neg (by omega), if_pos heq, if_pos ⟨by omega, by omega⟩]
    · rw [if_neg heq]
      by_cases hin : length ≤ i ∧ i < 64
      · rw [if_pos hin, if_pos ⟨by omega, hin.2⟩]
      · rw [if_neg hin, if_neg (by omega)]
  | case2 message length h =>
    funext i
    rw [if_neg (by omega)]

/-- How many zeros there are when a block is added. -/
theorem zeros_added (msgLength : Nat) {length : Nat} (hlow : 56 ≤ length) (hhigh : length < 64) :
    (64 - (length + 1 + (quadword msgLength).length) % 64) % 64 = 119 - length := by
  rw [quadword_length]
  omega

/-- A last block without room for the length, and the one that is added for it. -/
theorem longBlock_eq {rest : List UInt8} {source : Mem} (message : Mem) (msgLength : Nat)
    (hlow : 56 ≤ rest.length) (hhigh : rest.length < 64)
    (hsource : ∀ i < rest.length, source i = rest.getD i 0) :
    ∀ i < 64, clearMessage (storeByte (copyObject source message rest.length) rest.length
        ONE_BIT_VALUE) (rest.length + 1) i =
      (rest ++ padding 64 rest.length (quadword msgLength)).getD i 0 := by
  intro i hi
  unfold padding
  rw [zeros_added msgLength hlow hhigh, getD_padded, clearMessage_eq]
  unfold storeByte copyObject
  dsimp only
  -- all of the block is the rest, the one bit and zeros
  exact padded_eq hsource message _ (by omega) (by omega)

theorem addedBlock_eq {rest : List UInt8} (message : Mem) (msgLength : Nat)
    (hlow : 56 ≤ rest.length) (hhigh : rest.length < 64) :
    ∀ i < 64, storeQuadword (meminit message 0 56) 56 msgLength i =
      ((rest ++ padding 64 rest.length (quadword msgLength)).drop 64).getD i 0 := by
  intro i hi
  unfold padding
  rw [zeros_added msgLength hlow hhigh, getD_drop, getD_padded, meminit_eq]
  unfold storeQuadword zeroBytes
  by_cases hlast : 56 ≤ i
  · rw [if_pos ⟨hlast, hi⟩, if_neg (by omega), if_neg (by omega), if_neg (by omega),
      show 64 + i - (rest.length + 1 + (119 - rest.length)) = i - 56 by omega]
  · rw [if_neg (by omega), if_pos ⟨by omega, by omega⟩, if_neg (by omega), if_neg (by omega),
      if_pos (by omega)]

/-- The block with the length alone. -/
theorem lengthBlock_eq (message : Mem) (msgLength : Nat) :
    ∀ i < 64, lengthBlock message msgLength i =
      (padding 64 0 (quadword msgLength)).getD i 0 := by
  intro i hi
  have hpadded := getD_padded [] (quadword msgLength) 55 i
  rw [List.nil_append, List.length_nil] at hpadded
  refine Eq.trans ?_ hpadded.symm
  unfold lengthBlock
  rw [meminit_eq]
  unfold storeQuadword storeByte zeroBytes
  rw [if_neg (Nat.not_lt_zero i)]
  by_cases hlast : 56 ≤ i
  · rw [if_pos ⟨hlast, hi⟩, if_neg (by omega), if_neg (by omega)]
  · rw [if_neg (by omega)]
    by_cases hzero : i = 0
    · rw [if_pos hzero, if_pos hzero]
      rfl
    · rw [if_neg hzero, if_pos ⟨by omega, by omega⟩, if_neg hzero, if_pos (by omega)]

/-! ## The four branches -/

theorem length_padded (rest : List UInt8) (msgLength : Nat) :
    (rest ++ padding 64 rest.length (quadword msgLength)).length =
      rest.length + 9 + (64 - (rest.length + 9) % 64) % 64 := by
  unfold padding
  rw [List.length_append, List.length_cons, List.length_append, List.length_replicate,
    quadword_length]
  omega

theorem finish_short (state : Md5State) {rest : List UInt8} (msgLength : Nat)
    (h : rest.length < 56) :
    finish md5Compress 64 state rest (quadword msgLength) =
      md5Compress state (rest ++ padding 64 rest.length (quadword msgLength)) := by
  have hlength := length_padded rest msgLength
  rw [show rest.length + 9 + (64 - (rest.length + 9) % 64) % 64 = 64 by omega] at hlength
  unfold finish
  dsimp only
  rw [hlength, Nat.div_self (by omega), absorb_one _ _ _ hlength]

theorem finish_long (state : Md5State) {rest : List UInt8} (msgLength : Nat)
    (hlow : 56 ≤ rest.length) (hhigh : rest.length < 64) :
    finish md5Compress 64 state rest (quadword msgLength) =
      md5Compress
        (md5Compress state ((rest ++ padding 64 rest.length (quadword msgLength)).take 64))
        ((rest ++ padding 64 rest.length (quadword msgLength)).drop 64) := by
  have hlength := length_padded rest msgLength
  rw [show rest.length + 9 + (64 - (rest.length + 9) % 64) % 64 = 128 by omega] at hlength
  have hdrop : ((rest ++ padding 64 rest.length (quadword msgLength)).drop 64).length = 64 := by
    rw [List.length_drop, hlength]
  unfold finish
  dsimp only
  rw [hlength, show 128 / 64 = 1 + 1 from rfl, absorb_succ, absorb_one _ _ _ hdrop]

theorem finish_nil (state : Md5State) (message : Mem) (msgLength : Nat) :
    finish md5Compress 64 state [] (quadword msgLength) =
      md5Transform state (lengthBlock message msgLength) := by
  rw [finish_short state msgLength (by decide),
    md5Transform_eq_compress state (lengthBlock_eq message msgLength)]
  rfl

theorem finish_block (state : Md5State) {rest : List UInt8} (trailer : List UInt8)
    (h : rest.length = 64) :
    finish md5Compress 64 state rest trailer =
      finish md5Compress 64 (md5Compress state rest) [] trailer := by
  have hone := finish_append md5Compress 64 (by omega) 1 state [] trailer
    (h.trans (Nat.one_mul 64).symm)
  rw [List.append_nil, absorb_one md5Compress 64 state h] at hone
  exact hone

/-- **`md5Body` hashes the buffer**, with the value it is given as the trailer. -/
theorem md5Body_eq (state : Md5State) (buffer : List UInt8) (msgLength : Nat) (message : Mem) :
    md5Body state buffer buffer.length msgLength message =
      .ok (finish md5Compress 64 state buffer (quadword msgLength)) := by
  obtain ⟨n, hn, hshort, hrun⟩ := md5Blocks_eq buffer buffer.length state 0 (by omega)
  rw [Nat.zero_add, List.drop_zero] at hrun
  generalize hrest : buffer.drop (n * 64) = rest
  have hlength : buffer.length - n * 64 = rest.length := by rw [← hrest, List.length_drop]
  have htake : (buffer.take (n * 64)).length = n * 64 := by
    rw [List.length_take]
    omega
  have hsplit : buffer = buffer.take (n * 64) ++ rest := by
    rw [← hrest, List.take_append_drop]
  have hfinish : finish md5Compress 64 state buffer (quadword msgLength) =
      finish md5Compress 64 (absorb md5Compress 64 n state buffer) rest (quadword msgLength) := by
    have hleft := absorb_append_left md5Compress 64 n state rest htake
    have hfront := finish_append md5Compress 64 (by omega) n state rest
      (quadword msgLength) htake
    rw [← hsplit] at hleft hfront
    rw [hfront, hleft]
  have hread : readBuffer buffer (n * 64) rest.length =
      .ok fun i => buffer.getD (n * 64 + i) 0 := readBuffer_eq (by omega)
  have hsource : ∀ i < rest.length, buffer.getD (n * 64 + i) 0 = rest.getD i 0 := by
    intro i _
    rw [← hrest, getD_drop]
  rw [hlength] at hrun hshort
  rw [hfinish]
  generalize absorb md5Compress 64 n state buffer = state at hrun
  unfold md5Body
  simp only [hrun, bind, Except.bind, pure, Except.pure]
  by_cases hpos : 0 < rest.length
  · rw [if_pos hpos]
    by_cases h56 : rest.length < 56
    · -- one block
      rw [if_pos h56, hread, finish_short _ _ h56]
      dsimp only
      rw [md5Transform_eq_compress _ (shortBlock_eq msgLength h56 hsource)]
    · rw [if_neg h56]
      by_cases h64 : rest.length < 64
      · -- two blocks
        have hlong := longBlock_eq message msgLength (by omega) h64 hsource
        rw [if_pos h64, hread, finish_long _ _ (by omega) h64]
        dsimp only
        rw [md5Transform_eq_compress _ fun i hi => (hlong i hi).trans (getD_take _ hi).symm,
          md5Transform_eq_compress _ (addedBlock_eq _ msgLength (by omega) h64)]
      · -- a whole block, and one with the length alone
        have hall : rest.length = 64 := by omega
        rw [hall] at hread hsource
        rw [if_neg h64, hread, finish_block _ _ hall, finish_nil _ message]
        dsimp only
        rw [md5Transform_eq_compress _ hsource]
  · have hnil : rest = [] := List.eq_nil_of_length_eq_zero (by omega)
    rw [if_neg hpos, hnil, finish_nil _ message]

/-! ## One buffer -/

/-- The digest of RFC 1321: the trailer is the length in bits. -/
def md5Digest (bytes : List UInt8) : Md5State :=
  finish md5Compress 64 initMD5State bytes (quadword (8 * bytes.length))

/-- A collision of the compression function: the last blocks with the length in bytes and
with the length in bits are different, and compress to one state. -/
def LengthCollision (bytes : List UInt8) : Prop :=
  let state := chaining md5Compress 64 initMD5State bytes 8
  let inBytes := lastBlock 64 bytes (quadword bytes.length)
  let inBits := lastBlock 64 bytes (quadword (8 * bytes.length))
  inBytes ≠ inBits ∧ md5Compress state inBytes = md5Compress state inBits

/-- Numbers with the same low digits. -/
theorem mod_pow_eq_of_digits (base n m k : Nat)
    (h : ∀ i < k, n / base ^ i % base = m / base ^ i % base) : n % base ^ k = m % base ^ k := by
  induction k with
  | zero => rw [Nat.pow_zero, Nat.mod_one, Nat.mod_one]
  | succ k ih =>
    rw [Nat.mod_pow_succ, Nat.mod_pow_succ, ih fun i hi => h i (by omega), h k (by omega)]

theorem quadword_injective {n m : Nat} (hn : n < 256 ^ 8) (hm : m < 256 ^ 8)
    (h : quadword n = quadword m) : n = m := by
  have hbyte : ∀ i < 8, n / 256 ^ i % 256 = m / 256 ^ i % 256 := by
    intro i hi
    have hget : (quadword n)[i]? = (quadword m)[i]? := by rw [h]
    unfold quadword at hget
    rw [List.getElem?_map, List.getElem?_map, List.getElem?_range hi] at hget
    have hnat := congrArg UInt8.toNat (Option.some.inj hget)
    rw [UInt8.toNat_ofNat', UInt8.toNat_ofNat'] at hnat
    exact hnat
  have hmod := mod_pow_eq_of_digits 256 n m 8 hbyte
  rw [Nat.mod_eq_of_lt hn, Nat.mod_eq_of_lt hm] at hmod
  exact hmod

theorem lastBlock_injective {bytes : List UInt8} {n m : Nat} (hn : n < 256 ^ 8)
    (hm : m < 256 ^ 8)
    (h : lastBlock 64 bytes (quadword n) = lastBlock 64 bytes (quadword m)) : n = m := by
  unfold lastBlock at h
  rw [quadword_length, quadword_length] at h
  exact quadword_injective hn hm (List.append_cancel_left h)

/-- **`md5` leaves the digest of RFC 1321 for the empty buffer**, and for another one
where the length in bytes, as the trailer, collides with the length in bits. -/
theorem md5_digest_iff (buffer : List UInt8) (message : Mem) (h : buffer.length < 2 ^ 32) :
    md5 initMD5State buffer buffer.length message = .ok (md5Digest buffer) ↔
      buffer = [] ∨ LengthCollision buffer := by
  have htrailer : ∀ n, (quadword n).length ≤ 64 := by
    intro n
    rw [quadword_length]
    decide
  have hcompress := fun n =>
    finish_eq_compress md5Compress 64 (by omega) initMD5State buffer (htrailer n)
  have hmd5 : md5 initMD5State buffer buffer.length message = .ok (md5Digest buffer) ↔
      md5Compress (chaining md5Compress 64 initMD5State buffer 8)
          (lastBlock 64 buffer (quadword buffer.length)) =
        md5Compress (chaining md5Compress 64 initMD5State buffer 8)
          (lastBlock 64 buffer (quadword (8 * buffer.length))) := by
    unfold md5 md5Digest
    rw [md5Body_eq, hcompress, hcompress, quadword_length, quadword_length, Except.ok.injEq]
  rw [hmd5]
  constructor
  · intro hequal
    cases buffer with
    | nil => exact Or.inl rfl
    | cons b bytes =>
      refine Or.inr ⟨?_, hequal⟩
      intro hblock
      have hlength := lastBlock_injective (by omega) (by omega) hblock
      rw [List.length_cons] at hlength
      omega
  · rintro (hnil | hcollision)
    · rw [hnil]
      rfl
    · exact hcollision.2

theorem md5_digest_iff_nil :
    (([] : List UInt8).length < 2 ^ 32) ∧
      (md5 initMD5State [] 0 (fun _ => 0) = .ok (md5Digest []) ↔
        ([] : List UInt8) = [] ∨ LengthCollision []) :=
  ⟨by decide, md5_digest_iff [] (fun _ => 0) (by decide)⟩

/-- For the single byte `"a"` the digest is another one. -/
theorem md5_wrong_digest :
    ¬ ∀ (buffer : List UInt8) (message : Mem), buffer.length < 2 ^ 32 →
      md5 initMD5State buffer buffer.length message = .ok (md5Digest buffer) := by
  intro h
  have ha := h [0x61] (fun _ => 0) (by decide)
  unfold md5 at ha
  rw [md5Body_eq, Except.ok.injEq] at ha
  revert ha
  decide +kernel

/-! ## A stream of buffers -/

/-- The calls of `md5Stream` for some buffers in a row. -/
def md5Streams (state : Md5State) (chunks : List (List UInt8)) : Except Md5Error Md5State :=
  chunks.foldlM (fun state chunk => md5Stream state chunk chunk.length) state

/-- The do loop hashes its blocks, if there is one. -/
theorem md5StreamBlocks_eq (buffer : List UInt8) (n : Nat) :
    ∀ (state : Md5State) (offset length : Nat), length = n * 64 + 64 → length < 2 ^ 32 →
      offset + length ≤ buffer.length →
      md5StreamBlocks state buffer offset length =
        .ok (absorb md5Compress 64 (n + 1) state (buffer.drop offset)) := by
  induction n with
  | zero =>
    intro state offset length hn _ hlength
    rw [hn, Nat.zero_mul, Nat.zero_add] at hlength ⊢
    rw [md5StreamBlocks, dif_pos hlength]
    dsimp only
    rw [if_neg (by decide), md5Transform_drop]
    rfl
  | succ n ih =>
    intro state offset length hn hbound hlength
    rw [Nat.succ_mul] at hn
    have hwrap : (length + 2 ^ 32 - 64) % 2 ^ 32 = length - 64 := by
      rw [show length + 2 ^ 32 - 64 = length - 64 + 2 ^ 32 by omega, Nat.add_mod_right,
        Nat.mod_eq_of_lt (by omega)]
    rw [md5StreamBlocks, dif_pos (by omega)]
    dsimp only
    rw [hwrap, if_pos (by omega), ih _ (offset + 64) (length - 64) (by omega) (by omega) (by omega),
      md5Transform_drop, absorb_succ _ _ (n + 1), List.drop_drop]

/-- A buffer of whole blocks, one at least. -/
theorem md5Stream_eq (state : Md5State) {chunk : List UInt8} {n : Nat}
    (hn : chunk.length = n * 64) (hne : chunk ≠ []) (hbound : chunk.length < 2 ^ 32) :
    md5Stream state chunk chunk.length = .ok (absorb md5Compress 64 n state chunk) := by
  have hmask : chunk.length &&& 0x3F = 0 := by
    rw [show 0x3F = 2 ^ 6 - 1 from rfl, Nat.and_two_pow_sub_one_eq_mod chunk.length 6]
    omega
  have hpos : 0 < chunk.length := List.length_pos_of_ne_nil hne
  obtain ⟨k, rfl⟩ : ∃ k, n = k + 1 := ⟨n - 1, by omega⟩
  rw [Nat.succ_mul] at hn
  unfold md5Stream
  rw [if_neg (fun h => h hmask), md5StreamBlocks_eq chunk k state 0 _ hn hbound (by omega)]
  rfl

/-- An empty buffer is read all the same. -/
theorem md5Stream_nil (state : Md5State) : md5Stream state [] 0 = .error .outOfBounds := by
  unfold md5Stream
  rw [if_neg (by decide), md5StreamBlocks, dif_neg (by decide)]

theorem md5Streams_cons (state : Md5State) (chunk : List UInt8) (chunks : List (List UInt8)) :
    md5Streams state (chunk :: chunks) =
      (md5Stream state chunk chunk.length).bind fun state => md5Streams state chunks := rfl

/-- Streamed buffers that are not empty are hashed one after another. -/
theorem md5Streams_eq (chunks : List (List UInt8)) :
    ∀ (state : Md5State), (∀ chunk ∈ chunks, chunk.length % 64 = 0) →
      (∀ chunk ∈ chunks, chunk ≠ []) → chunks.flatten.length < 2 ^ 32 →
      ∃ n, chunks.flatten.length = n * 64 ∧
        md5Streams state chunks = .ok (absorb md5Compress 64 n state chunks.flatten) := by
  induction chunks with
  | nil =>
    intro state _ _ _
    exact ⟨0, rfl, rfl⟩
  | cons chunk chunks ih =>
    intro state hblocks hne hlength
    rw [List.flatten_cons, List.length_append] at hlength
    have hmod : chunk.length % 64 = 0 := hblocks chunk List.mem_cons_self
    have hn : chunk.length = chunk.length / 64 * 64 := by omega
    have hstream := md5Stream_eq state hn (hne chunk List.mem_cons_self) (by omega)
    obtain ⟨m, hm, hrun⟩ := ih (absorb md5Compress 64 (chunk.length / 64) state chunk)
      (fun c hc => hblocks c (List.mem_cons_of_mem _ hc))
      (fun c hc => hne c (List.mem_cons_of_mem _ hc)) (by omega)
    refine ⟨chunk.length / 64 + m, ?_, ?_⟩
    · rw [List.flatten_cons, List.length_append, hm, Nat.add_mul, ← hn]
    · rw [md5Streams_cons, hstream, List.flatten_cons, absorb_append _ _ _ _ _ _ hn]
      exact hrun

/-- One empty buffer among them is an error. -/
theorem md5Streams_error {chunks : List (List UInt8)} (hnil : [] ∈ chunks) :
    ∀ (state : Md5State), ∃ e, md5Streams state chunks = .error e := by
  induction chunks with
  | nil => cases hnil
  | cons chunk chunks ih =>
    intro state
    rw [md5Streams_cons]
    cases hstream : md5Stream state chunk chunk.length with
    | error e => exact ⟨e, rfl⟩
    | ok state' =>
      rcases List.mem_cons.mp hnil with hhead | htail
      · rw [← hhead, List.length_nil, md5Stream_nil] at hstream
        cases hstream
      · exact ih htail state'

/-- **Streaming agrees with hashing the whole message exactly when no streamed buffer is
empty.** -/
theorem stream_md5_iff (state : Md5State) (chunks : List (List UInt8)) (rest : List UInt8)
    (message message' : Mem) (hblocks : ∀ chunk ∈ chunks, chunk.length % 64 = 0)
    (hlength : (chunks.flatten ++ rest).length < 2 ^ 32) :
    (do
      let state ← md5Streams state chunks
      md5StreamEnd state rest rest.length (chunks.flatten ++ rest).length message) =
        md5 state (chunks.flatten ++ rest) (chunks.flatten ++ rest).length message' ↔
      ∀ chunk ∈ chunks, chunk ≠ [] := by
  unfold md5 md5StreamEnd
  simp only [md5Body_eq, bind, Except.bind]
  constructor
  · intro hequal chunk hchunk hnil
    rw [hnil] at hchunk
    obtain ⟨e, he⟩ := md5Streams_error hchunk state
    rw [he] at hequal
    cases hequal
  · intro hne
    rw [List.length_append] at hlength
    obtain ⟨n, hn, hrun⟩ := md5Streams_eq chunks state hblocks hne (by omega)
    rw [hrun, finish_append _ _ (by omega) n _ _ _ hn]

theorem stream_md5_iff_oneBlock :
    (∀ chunk ∈ [List.replicate 64 (0 : UInt8)], chunk.length % 64 = 0) ∧
      ([List.replicate 64 (0 : UInt8)].flatten ++ [0x61]).length < 2 ^ 32 ∧
      ((do
        let state ← md5Streams initMD5State [List.replicate 64 0]
        md5StreamEnd state [0x61] 1 65 fun _ => 0) =
          md5 initMD5State ([List.replicate 64 0].flatten ++ [0x61]) 65 (fun _ => 0) ↔
        ∀ chunk ∈ [List.replicate 64 (0 : UInt8)], chunk ≠ []) :=
  ⟨by decide, by decide, stream_md5_iff initMD5State [List.replicate 64 0] [0x61] (fun _ => 0)
    (fun _ => 0) (by decide) (by decide)⟩

/-- With an empty buffer in the stream, `md5Stream` reads 64 bytes that are not there. -/
theorem stream_md5_emptyChunk :
    ¬ ∀ (state : Md5State) (chunks : List (List UInt8)) (rest : List UInt8)
      (message message' : Mem), (∀ chunk ∈ chunks, chunk.length % 64 = 0) →
      (chunks.flatten ++ rest).length < 2 ^ 32 →
      (do
        let state ← md5Streams state chunks
        md5StreamEnd state rest rest.length (chunks.flatten ++ rest).length message) =
          md5 state (chunks.flatten ++ rest) (chunks.flatten ++ rest).length message' := by
  intro h
  have hempty := h initMD5State [[]] [] (fun _ => 0) (fun _ => 0) (by decide) (by decide)
  obtain ⟨e, he⟩ := md5Streams_error (List.mem_singleton_self []) initMD5State
  unfold md5 at hempty
  rw [he, md5Body_eq] at hempty
  cases hempty

end DevopsBroker.Hash
